import GLang.Proofs.FunctionCode

/-!
# The slots of parameters

A function finds its parameters above its frame base, one in each slot of four bytes, after the
saved frame base and the return address: `FunctionSignature.scopes_entry`. No two have the same
name, so that each is found by its name: `FunctionSignature.lookup_entry`.
-/

namespace GLang

/-- The symbols of slots from the cursor `c` on. -/
def slotSymbols (c : Int) : List (String × Ty) → List Symbol
  | [] => []
  | (x, t) :: rest => ⟨x, t, c⟩ :: slotSymbols (c - parameterSlot) rest

theorem map_name_slotSymbols (slots : List (String × Ty)) :
    ∀ c, (slotSymbols c slots).map Symbol.name = slots.map Prod.fst := by
  induction slots with
  | nil => intro c; rfl
  | cons slot slots ih => intro c; rw [slotSymbols, List.map_cons, List.map_cons, ih]

theorem getElem?_slotSymbols {slots : List (String × Ty)} {x : String} {t : Ty} :
    ∀ {c : Int} {i : Nat}, slots[i]? = some (x, t) →
      (slotSymbols c slots)[i]? = some ⟨x, t, c - parameterSlot * i⟩ := by
  induction slots with
  | nil => intro c i h; simp at h
  | cons slot slots ih =>
    intro c i h
    cases i with
    | zero =>
      obtain rfl : slot = (x, t) := by simpa using h
      simp [slotSymbols]
    | succ i =>
      have hrest := ih (c := c - parameterSlot) (show slots[i]? = some (x, t) by simpa using h)
      rw [slotSymbols, List.getElem?_cons_succ, hrest]
      simp only [Option.some.injEq, Symbol.mk.injEq, true_and, parameterSlot]
      omega

theorem find?_name_eq_some {symbols : List Symbol} (h : (symbols.map Symbol.name).Nodup)
    {i : Nat} {s : Symbol} (hs : symbols[i]? = some s) :
    symbols.find? (·.name == s.name) = some s := by
  induction symbols generalizing i with
  | nil => simp at hs
  | cons s' symbols ih =>
    obtain ⟨hnot, hrest⟩ := List.nodup_cons.1 h
    cases i with
    | zero =>
      obtain rfl : s' = s := by simpa using hs
      simp
    | succ i =>
      have hs : symbols[i]? = some s := by simpa using hs
      have hne : s'.name ≠ s.name := fun heq =>
        hnot (heq ▸ List.mem_map_of_mem (List.mem_of_getElem? hs))
      rw [List.find?_cons, beq_false_of_ne hne]
      exact ih hrest hs

theorem Scope.allocate_parameter {s s' : Scope} {x : String} {t : Ty} {symbol : Symbol}
    (hk : s.kind = .parameter) (h : s.allocate x t = .ok (symbol, s')) :
    x ∉ s.symbols.map Symbol.name ∧ symbol = ⟨x, t, s.cursor⟩ ∧
      s' = s.add symbol (s.cursor - parameterSlot) := by
  unfold Scope.allocate at h
  by_cases hx : (s.get? x).isSome
  · rw [if_pos hx] at h
    cases h
  · rw [if_neg hx, if_pos hk] at h
    cases h
    refine ⟨fun hmem => hx ?_, rfl, rfl⟩
    obtain ⟨symbol, hsymbol, rfl⟩ := List.mem_map.1 hmem
    rw [Scope.get?, List.find?_isSome]
    exact ⟨symbol, hsymbol, beq_self_eq_true _⟩

theorem ScopeStack.declareAll_parameters {slots : List (String × Ty)} :
    ∀ {s s' : ScopeStack} {top : Scope} {rest : List Scope}, s.scopes = top :: rest →
      top.kind = .parameter → s.declareAll slots = .ok s' →
      (top.symbols.map Symbol.name).Nodup →
      (top.symbols.map Symbol.name ++ slots.map Prod.fst).Nodup ∧
      s' = { s with scopes :=
        { top with
          symbols := top.symbols ++ slotSymbols top.cursor slots
          cursor := top.cursor - parameterSlot * slots.length } :: rest } := by
  induction slots with
  | nil =>
    intro s s' top rest hs hk h hnodup
    cases h
    simp [slotSymbols, hnodup, ← hs]
  | cons slot slots ih =>
    intro s s' top rest hs hk h hnodup
    obtain ⟨x, t⟩ := slot
    obtain ⟨⟨symbol, s₁⟩, hd, h⟩ := except_bind_eq_ok.1 h
    obtain ⟨top', top₁, rest', hs', ha, rfl⟩ := declare_eq_ok.1 hd
    cases hs.symm.trans hs'
    obtain ⟨hx, rfl, rfl⟩ := Scope.allocate_parameter hk ha
    have hnodup₁ : ((top.add ⟨x, t, top.cursor⟩ (top.cursor - parameterSlot)).symbols.map
        Symbol.name).Nodup := by
      simpa [Scope.add, List.nodup_append', hnodup] using hx
    have hk₁ : (top.add ⟨x, t, top.cursor⟩ (top.cursor - parameterSlot)).kind = .parameter := hk
    obtain ⟨hall, rfl⟩ := ih rfl hk₁ h hnodup₁
    refine ⟨by simpa [Scope.add] using hall, ?_⟩
    simp only [Scope.add, slotSymbols, List.length_cons, List.append_assoc, List.singleton_append,
      ScopeStack.mk.injEq, List.cons.injEq, Scope.mk.injEq, true_and, and_true, parameterSlot]
    omega

namespace FunctionSignature

/-- The scope of the parameters of a function. -/
def frame (signature : FunctionSignature) : Scope :=
  { Scope.empty 0 .parameter parameterStart with
    symbols := slotSymbols parameterStart signature.slots
    cursor := parameterStart - parameterSlot * signature.slots.length }

variable {signature : FunctionSignature} {d : Declarations} {ctx : Context}

/-- **The context at the start of a function.** The body is empty, and the slots lie one after
another above the saved frame base and the return address. -/
theorem scopes_entry (h : signature.entry d = .ok ctx) :
    (signature.slots.map Prod.fst).Nodup ∧
      ctx = Context.enter { toDeclarations := d, scopes := { scopes := [signature.frame] } }
        .function := by
  obtain ⟨scopes, hscopes, h⟩ := except_bind_eq_ok.1 h
  cases h
  have hstart : (Context.enter { toDeclarations := d } .parameter).scopes.scopes =
      [.empty 0 .parameter parameterStart] := rfl
  obtain ⟨hnodup, rfl⟩ := ScopeStack.declareAll_parameters hstart rfl hscopes List.nodup_nil
  exact ⟨hnodup, rfl⟩

theorem lookup_entry (h : signature.entry d = .ok ctx) {i : Nat} {x : String} {t : Ty}
    (hi : signature.slots[i]? = some (x, t)) :
    ctx.lookup x = .ok ⟨x, t, parameterStart - parameterSlot * i⟩ := by
  obtain ⟨hnodup, rfl⟩ := scopes_entry h
  have hnames : ((slotSymbols parameterStart signature.slots).map Symbol.name).Nodup := by
    rw [map_name_slotSymbols]
    exact hnodup
  have hfind := find?_name_eq_some hnames (getElem?_slotSymbols (c := parameterStart) hi)
  simp only [Context.lookup, ScopeStack.lookup, ScopeStack.find?, Context.enter,
    List.findSome?_cons, Scope.get?, Scope.empty, List.find?_nil, frame, hfind]

end FunctionSignature

end GLang
