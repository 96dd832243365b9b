import GLang.Proofs.Execution
import GLang.Proofs.Labels
import GLang.Proofs.Layout
import GLang.Proofs.Lowered
import Mathlib.Data.List.Forall2

/-!
# Variables in memory

The variables of the semantics are the slots of the frame: `Frame.Inv` relates an environment to a
machine. It is kept by all that happens below the slots, as pushing and popping, and by storing in a
slot what is stored in the variable.

`Expr.steps_of_eval`: the code of an expression pushes its value, and does to the slots what the
expression does to the variables.
-/

namespace GLang

open Asm

/-! ### Places as numbers -/

theorem toNat_sub_ofInt {base : Word} {n : Int} (h₀ : n ≤ base.toNat)
    (h₁ : (base.toNat : Int) - n < 2 ^ 32) :
    ((base - .ofInt 32 n).toNat : Int) = base.toNat - n := by
  rw [BitVec.toNat_sub, BitVec.toNat_ofInt]
  omega

namespace Asm.Memory

variable {mem mem' : Memory} {w : Width} {a b v : Word}

theorem store_of_outside (ha : a.toNat + w.bytes ≤ 2 ^ 32)
    (h : b.toNat < a.toNat ∨ a.toNat + w.bytes ≤ b.toNat) : mem.store w a v b = mem b := by
  refine store_of_le ?_
  bv_omega

theorem load_congr_of_le (ha : a.toNat + w.bytes ≤ 2 ^ 32)
    (h : ∀ b : Word, a.toNat ≤ b.toNat → b.toNat < a.toNat + w.bytes → mem b = mem' b) :
    mem.load w a = mem'.load w a := by
  refine load_congr fun b hb => h b ?_ ?_
  · bv_omega
  · bv_omega

end Asm.Memory

/-! ### Frames -/

/-- The frame of a function: its base, the memory when the body starts, and the parameters, which
lie above the saved frame base and the return address. -/
structure Frame where
  base : Word
  memory : Memory
  params : List Symbol
  above : ∀ s ∈ params, s.offset ≤ -8 ∧ (base.toNat : Int) - s.offset + s.bytes ≤ 2 ^ 32

/-- The byte at `a` belongs to the variable. -/
def Symbol.Covers (s : Symbol) (base a : Word) : Prop :=
  (a - s.place base).toNat < s.bytes

/-- The variable `c` is kept in the slot of `s`. -/
structure Holds (base : Word) (mem : Memory) (s : Symbol) (c : Cell) : Prop where
  name : s.name = c.name
  width : s.type.width = c.width
  value : ∀ v, c.value = some v → mem.load c.width (s.place base) = v

namespace Frame

/-- **The variables are in their slots**, and above the frame only parameters have changed. -/
structure Inv (fr : Frame) (ctx : Context) (ρ : Env) (m : Machine) : Prop where
  laid : ctx.Laid fr.params
  base : m.ebp = fr.base
  vars : List.Forall₂ (Holds fr.base m.memory) ctx.symbols ρ
  kept : ∀ a : Word, fr.base.toNat ≤ a.toNat → (∀ s ∈ fr.params, ¬ s.Covers fr.base a) →
    m.memory a = fr.memory a

variable {fr : Frame} {ctx : Context} {D : Nat}

/-- Where a slot lies, as numbers. -/
theorem place_bounds (hl : ctx.Laid fr.params) (hc : ctx.cursor ≤ D) (hD : D ≤ fr.base.toNat)
    {s : Symbol} (hs : s ∈ ctx.symbols) :
    ((s.place fr.base).toNat : Int) = fr.base.toNat - s.offset ∧
      fr.base.toNat ≤ (s.place fr.base).toNat + D ∧
      (s.place fr.base).toNat + s.bytes ≤ 2 ^ 32 := by
  have hbelow := hl.below s hs
  have hpos : 0 < s.bytes := s.type.width.bytes_pos
  have hlt := fr.base.isLt
  have hfits : (fr.base.toNat : Int) - s.offset + s.bytes ≤ 2 ^ 32 := by
    rcases hl.place s hs with hparam | hlocal
    · exact (fr.above s hparam).2
    · omega
  have hplace : ((s.place fr.base).toNat : Int) = fr.base.toNat - s.offset :=
    toNat_sub_ofInt (by omega) (by omega)
  exact ⟨hplace, by omega, by omega⟩

/-- What belongs to a slot, as numbers. -/
theorem covers_iff (hl : ctx.Laid fr.params) (hc : ctx.cursor ≤ D) (hD : D ≤ fr.base.toNat)
    {s : Symbol} (hs : s ∈ ctx.symbols) {a : Word} :
    s.Covers fr.base a ↔ (s.place fr.base).toNat ≤ a.toNat ∧
      a.toNat < (s.place fr.base).toNat + s.bytes := by
  obtain ⟨-, -, hfits⟩ := place_bounds hl hc hD hs
  unfold Symbol.Covers
  constructor
  · intro h
    constructor <;> bv_omega
  · rintro ⟨h₁, h₂⟩
    bv_omega

theorem not_covers_of_apart (hl : ctx.Laid fr.params) (hc : ctx.cursor ≤ D)
    (hD : D ≤ fr.base.toNat) {s s' : Symbol} (hs : s ∈ ctx.symbols) (hs' : s' ∈ ctx.symbols)
    (hapart : s.Apart s') {a : Word} (ha : s.Covers fr.base a) : ¬ s'.Covers fr.base a := by
  obtain ⟨hplace, -, -⟩ := place_bounds hl hc hD hs
  obtain ⟨hplace', -, -⟩ := place_bounds hl hc hD hs'
  rw [covers_iff hl hc hD hs] at ha
  rw [covers_iff hl hc hD hs']
  rcases hapart with h | h <;> omega

end Frame

theorem Holds.congr {base : Word} {mem mem' : Memory} {s : Symbol} {c : Cell}
    (h : Holds base mem s c) (hmem : ∀ a, s.Covers base a → mem' a = mem a) :
    Holds base mem' s c where
  name := h.name
  width := h.width
  value v hv := by
    rw [← h.value v hv]
    refine Memory.load_congr fun b hb => hmem b ?_
    rw [← h.width] at hb
    exact hb

section Slots

variable {base : Word} {mem mem' : Memory} {symbols : List Symbol} {ρ ρ' : Env}
  {x : String} {s : Symbol} {v : Word}

theorem holds_congr (h : List.Forall₂ (Holds base mem) symbols ρ)
    (hmem : ∀ s ∈ symbols, ∀ a, s.Covers base a → mem' a = mem a) :
    List.Forall₂ (Holds base mem') symbols ρ := by
  induction h with
  | nil => exact .nil
  | cons hhold _ ih =>
    obtain ⟨hhead, htail⟩ := List.forall_mem_cons.1 hmem
    exact .cons (hhold.congr hhead) (ih htail)

theorem load_of_holds (h : List.Forall₂ (Holds base mem) symbols ρ)
    (hfind : symbols.find? (·.name == x) = some s) (hv : ρ.read x = some v) :
    mem.load s.type.width (s.place base) = v := by
  induction h with
  | nil => cases hfind
  | @cons s' c symbols ρ hhold _ ih =>
    by_cases hname : s'.name = x
    · obtain rfl : s' = s := by simpa [hname] using hfind
      have hvalue : c.value = some v := by simpa [Env.read, ← hhold.name, hname] using hv
      rw [hhold.width]
      exact hhold.value v hvalue
    · have hfind : symbols.find? (·.name == x) = some s := by simpa [hname] using hfind
      refine ih hfind ?_
      simpa [Env.read, ← hhold.name, hname] using hv

theorem holds_write (h : List.Forall₂ (Holds base mem) symbols ρ)
    (hfind : symbols.find? (·.name == x) = some s) (hw : ρ.write x v = some ρ')
    (happart : symbols.Pairwise fun s s' => ∀ a, s.Covers base a → ¬ s'.Covers base a)
    (hload : mem'.load s.type.width (s.place base) = s.type.width.truncate v)
    (hmem : ∀ a, ¬ s.Covers base a → mem' a = mem a) :
    List.Forall₂ (Holds base mem') symbols ρ' := by
  induction h generalizing ρ' with
  | nil => cases hfind
  | @cons s' c symbols ρ hhold hrest ih =>
    obtain ⟨hhead, htail⟩ := List.pairwise_cons.1 happart
    by_cases hname : s'.name = x
    · obtain rfl : s' = s := by simpa [hname] using hfind
      have hρ' : { c with value := some (c.width.truncate v) } :: ρ = ρ' := by
        simpa [Env.write, ← hhold.name, hname] using hw
      subst hρ'
      refine .cons ⟨hhold.name, hhold.width, fun w hw => ?_⟩ (holds_congr hrest ?_)
      · cases hw
        rw [← hhold.width]
        exact hload
      · exact fun s hs a ha => hmem a fun ha' => hhead s hs a ha' ha
    · have hfind : symbols.find? (·.name == x) = some s := by simpa [hname] using hfind
      obtain ⟨ρ₁, hw₁, rfl⟩ : ∃ ρ₁, Env.write ρ x v = some ρ₁ ∧ c :: ρ₁ = ρ' := by
        simpa [Env.write, ← hhold.name, hname] using hw
      refine .cons (hhold.congr fun a ha => hmem a ?_) (ih hfind hw₁ htail)
      exact hhead s (List.mem_of_find?_eq_some hfind) a ha

end Slots

namespace Frame.Inv

variable {fr : Frame} {ctx : Context} {D : Nat} {ρ ρ' : Env} {m m' : Machine}

theorem congr (h : fr.Inv ctx ρ m) (hc : ctx.cursor ≤ D) (hD : D ≤ fr.base.toNat)
    (hebp : m'.ebp = m.ebp)
    (hmem : ∀ a : Word, fr.base.toNat ≤ a.toNat + D → m'.memory a = m.memory a) :
    fr.Inv ctx ρ m' where
  laid := h.laid
  base := hebp.trans h.base
  vars := by
    refine holds_congr h.vars fun s hs a ha => hmem a ?_
    obtain ⟨-, hle, -⟩ := place_bounds h.laid hc hD hs
    have := (covers_iff h.laid hc hD hs).1 ha
    omega
  kept a ha hnot := by
    rw [hmem a (by omega), h.kept a ha hnot]

theorem load (h : fr.Inv ctx ρ m) {x : String} {s : Symbol} {v : Word}
    (hx : ctx.lookup x = .ok s) (hv : ρ.read x = some v) :
    m.memory.load s.type.width (s.place m.ebp) = v := by
  rw [h.base]
  exact load_of_holds h.vars (h.laid.find? hx) hv

theorem pairwise_covers (hl : ctx.Laid fr.params) (hc : ctx.cursor ≤ D) (hD : D ≤ fr.base.toNat) :
    ctx.symbols.Pairwise fun s s' => ∀ a, s.Covers fr.base a → ¬ s'.Covers fr.base a :=
  hl.apart.imp_of_mem fun hs hs' hapart _ ha => not_covers_of_apart hl hc hD hs hs' hapart ha

theorem kept_store (h : fr.Inv ctx ρ m) {s : Symbol} {v : Word} (hc : ctx.cursor ≤ D)
    (hD : D ≤ fr.base.toNat) (hs : s ∈ ctx.symbols) (a : Word) (ha : fr.base.toNat ≤ a.toNat)
    (hnot : ∀ s ∈ fr.params, ¬ s.Covers fr.base a) :
    (m.memory.store s.type.width (s.place fr.base) v) a = fr.memory a := by
  have hcover : ¬ s.Covers fr.base a := by
    rcases h.laid.place s hs with hparam | hlocal
    · exact hnot s hparam
    · obtain ⟨hplace, -, -⟩ := place_bounds h.laid hc hD hs
      rw [covers_iff h.laid hc hD hs]
      omega
  rw [Memory.store_of_le (Nat.not_lt.1 hcover), h.kept a ha hnot]

/-- **An assignment is a store to the slot of its variable.** -/
theorem write (h : fr.Inv ctx ρ m) (hc : ctx.cursor ≤ D) (hD : D ≤ fr.base.toNat) {x : String}
    {s : Symbol} {v w : Word} (hfind : ctx.symbols.find? (·.name == x) = some s)
    (hw : ρ.write x v = some ρ') (hvw : s.type.width.truncate w = s.type.width.truncate v)
    (hebp : m'.ebp = m.ebp)
    (hmem : m'.memory = m.memory.store s.type.width (s.place m.ebp) w) : fr.Inv ctx ρ' m' := by
  rw [h.base] at hmem
  refine ⟨h.laid, hebp.trans h.base, ?_, ?_⟩
  · refine holds_write h.vars hfind hw (pairwise_covers h.laid hc hD) ?_ fun a ha => ?_
    · rw [hmem, Memory.load_store, hvw]
    · rw [hmem, Memory.store_of_le (Nat.not_lt.1 ha)]
  · rw [hmem]
    exact h.kept_store hc hD (List.mem_of_find?_eq_some hfind)

theorem store_of_below (h : fr.Inv ctx ρ m) (hc : ctx.cursor ≤ D) (hD : D ≤ fr.base.toNat)
    {s : Symbol} (hs : s ∈ ctx.symbols) {v a : Word} (ha : a.toNat + D < fr.base.toNat) :
    m.memory.store s.type.width (s.place m.ebp) v a = m.memory a := by
  obtain ⟨-, hle, hfits⟩ := place_bounds h.laid hc hD hs
  rw [h.base]
  refine Memory.store_of_outside hfits (.inl ?_)
  omega

end Frame.Inv

/-! ### Expressions -/

/-- `v` has been pushed, and below the slots of the frame nothing else has changed. -/
structure Frame.Pushed (fr : Frame) (D : Nat) (m m' : Machine) (v : Word) : Prop where
  esp : m'.esp.toNat + 4 = m.esp.toNat
  top : m'.memory.load .dword m'.esp = v
  kept : ∀ a : Word, m.esp.toNat ≤ a.toNat → a.toNat + D < fr.base.toNat → m'.memory a = m.memory a

namespace Frame

variable {fr : Frame} {ctx : Context} {D : Nat} {ρ ρ' : Env} {m m₁ m' : Machine} {v : Word}

theorem Inv.storeBelow (h : fr.Inv ctx ρ m) (hc : ctx.cursor ≤ D) {a : Word}
    (ha : a.toNat + 4 + D ≤ fr.base.toNat) (hebp : m'.ebp = m.ebp)
    (hmem : m'.memory = m.memory.store .dword a v) : fr.Inv ctx ρ m' := by
  refine h.congr hc (by omega) hebp fun b hb => ?_
  rw [hmem]
  refine Memory.store_of_outside ?_ (.inr ?_) <;> simp only [Width.bytes] <;> omega

theorem Pushed.of_store (hroom : 4 ≤ m.esp.toNat) (hesp : m'.esp = m.esp - 4)
    (hmem : m'.memory = m.memory.store .dword (m.esp - 4) v) : fr.Pushed D m m' v where
  esp := by
    rw [hesp]
    bv_omega
  top := by rw [hesp, hmem, Memory.load_store, Width.truncate_dword]
  kept a ha _ := by
    rw [hmem]
    refine Memory.store_of_outside ?_ (.inr ?_) <;> simp only [Width.bytes] <;> bv_omega

theorem Inv.push (h : fr.Inv ctx ρ m) (hc : ctx.cursor ≤ D)
    (hD : m.esp.toNat + D ≤ fr.base.toNat) (hroom : 4 ≤ m.esp.toNat) (hesp : m'.esp = m.esp - 4)
    (hebp : m'.ebp = m.ebp) (hmem : m'.memory = m.memory.store .dword (m.esp - 4) v) :
    fr.Inv ctx ρ m' ∧ fr.Pushed D m m' v := by
  refine ⟨h.storeBelow hc ?_ hebp hmem, .of_store hroom hesp hmem⟩
  bv_omega

theorem Pushed.load_of_pushed {a b : Word} (h₁ : fr.Pushed D m m₁ a) (h₂ : fr.Pushed D m₁ m' b)
    (hD : m.esp.toNat + D ≤ fr.base.toNat) : m'.memory.load .dword (m'.esp + 4) = a := by
  have hesp₁ := h₁.esp
  have hesp₂ := h₂.esp
  have hplace : m'.esp + 4 = m₁.esp := by bv_omega
  rw [hplace, ← h₁.top]
  refine Memory.load_congr_of_le ?_ fun b hb hlt => h₂.kept b hb ?_
  · simp only [Width.bytes]
    omega
  · simp only [Width.bytes] at hlt
    omega

theorem Inv.step (h : fr.Inv ctx ρ m) (hc : ctx.cursor ≤ D) (hD : D ≤ fr.base.toNat) {x : String}
    {s : Symbol} {op : StepOp} (hx : ctx.lookup x = .ok s) (hv : ρ.read x = some v)
    (hw : ρ.write x (op.apply v) = some ρ') (env : Environment) :
    ∃ m', Instr.run env (s.stepCode op) m = some m' ∧ m'.esp = m.esp ∧ fr.Inv ctx ρ' m' ∧
      ∀ a : Word, a.toNat + D < fr.base.toNat → m'.memory a = m.memory a := by
  have hfind := h.laid.find? hx
  obtain ⟨m', hrun, hesp, hebp, hmem⟩ := s.run_stepCode env m op
  rw [h.load hx hv] at hmem
  refine ⟨m', hrun, hesp, ?_, fun a ha => ?_⟩
  · exact h.write hc hD hfind hw (Width.truncate_truncate _ _) hebp hmem
  · rw [hmem]
    exact h.store_of_below hc hD (List.mem_of_find?_eq_some hfind) ha

end Frame

section Expressions

variable {fr : Frame} {ctx : Context} {D : Nat} {full : Code} {env : Environment}

open GLang.Frame

/-- **The code of an expression pushes its value**, and does to the slots what the expression does
to the variables. -/
theorem Expr.steps_of_eval (hc : ctx.cursor ≤ D) :
    ∀ {e : Expr} {code : List Instr} {rest : Code} {ρ ρ' : Env} {v : Word} {m : Machine},
      e.lower ctx = .ok code → e.eval ρ = some (v, ρ') → fr.Inv ctx ρ m →
      m.esp.toNat + D ≤ fr.base.toNat → full.Safe env ⟨Code.ofInstrs code ++ rest, m⟩ →
      ∃ m', full.Steps env ⟨Code.ofInstrs code ++ rest, m⟩ ⟨rest, m'⟩ ∧ fr.Inv ctx ρ' m' ∧
        fr.Pushed D m m' v
  | .int n, code, rest, ρ, ρ', v, m, h, he, hinv, hD, hsafe => by
    cases lower_int.1 h
    obtain ⟨rfl, rfl⟩ : BitVec.ofInt 32 n = v ∧ ρ = ρ' := by simpa [eval] using he
    have hroom := hsafe.room (d := 4) rfl
    refine ⟨m.push (.ofInt 32 n), .of_run rfl, ?_⟩
    exact hinv.push hc hD (by omega) rfl rfl rfl
  | .var x, code, rest, ρ, ρ', v, m, h, he, hinv, hD, hsafe => by
    obtain ⟨s, hx, rfl⟩ := lower_var.1 h
    obtain ⟨hv, rfl⟩ := eval_var.1 he
    have hp := hinv.laid.primitive s (List.mem_of_find?_eq_some (hinv.laid.find? hx))
    obtain ⟨hroom, m', hsteps, hesp, hebp, hmem⟩ := s.steps_pushCode hp hsafe
    rw [hinv.load hx hv] at hmem
    exact ⟨m', hsteps, hinv.push hc hD hroom hesp hebp hmem⟩
  | .cast e target, code, rest, ρ, ρ', v, m, h, he, hinv, hD, hsafe =>
    steps_of_eval hc (lower_cast.1 h) (by simpa [eval] using he) hinv hD hsafe
  | .binary op l r, code, rest, ρ, ρ', v, m, h, he, hinv, hD, hsafe => by
    obtain ⟨left, right, hleft, hright, rfl⟩ := lower_binary.1 h
    obtain ⟨a, ρ₁, b, ha, hb, hv⟩ := eval_binary.1 he
    simp only [Code.ofInstrs_append, List.append_assoc] at hsafe ⊢
    obtain ⟨m₁, hsteps₁, hinv₁, hpush₁⟩ := steps_of_eval hc hleft ha hinv hD hsafe
    have hesp₁ := hpush₁.esp
    obtain ⟨m₂, hsteps₂, hinv₂, hpush₂⟩ :=
      steps_of_eval hc hright hb hinv₁ (by omega) (hsafe.of_steps hsteps₁)
    have hesp₂ := hpush₂.esp
    obtain ⟨m₃, hrun, hesp₃, hebp₃, hmem₃⟩ :=
      op.run_code env hpush₂.top (hpush₁.load_of_pushed hpush₂ hD) hv
    refine ⟨m₃, (hsteps₁.trans hsteps₂).trans (Code.Steps.of_run hrun), ?_, ?_, ?_,
      fun a ha hlt => ?_⟩
    · exact hinv₂.storeBelow hc (by bv_omega) hebp₃ hmem₃
    · rw [hesp₃]
      bv_omega
    · rw [hesp₃, hmem₃, Memory.load_store, Width.truncate_dword]
    · rw [hmem₃, Memory.store_of_outside, hpush₂.kept a (by omega) hlt, hpush₁.kept a ha hlt]
      · simp only [Width.bytes]
        bv_omega
      · refine .inr ?_
        simp only [Width.bytes]
        bv_omega
  | .step op .before (.var x), code, rest, ρ, ρ', v, m, h, he, hinv, hD, hsafe => by
    obtain ⟨step, value, hstep, hvalue, rfl⟩ := lower_stepBefore.1 h
    obtain ⟨_, s, hx, hs, hp, rfl⟩ := stepCode_eq_ok.1 hstep
    cases hx
    obtain ⟨old, hold, hw, hv⟩ := eval_stepBefore.1 he
    simp only [Code.ofInstrs_append, List.append_assoc] at hsafe ⊢
    obtain ⟨m₁, hrun, hesp, hinv₁, hmem⟩ := hinv.step hc (by omega) hs hold hw env
    obtain ⟨m₂, hsteps, hinv₂, hpush⟩ := steps_of_eval hc (e := .var x) hvalue
      (eval_var.2 ⟨hv, rfl⟩) hinv₁ (by rw [hesp]; exact hD) (hsafe.of_steps (.of_run hrun))
    refine ⟨m₂, (Code.Steps.of_run hrun).trans hsteps, hinv₂, ?_, hpush.top, fun a ha hlt => ?_⟩
    · rw [← hesp]
      exact hpush.esp
    · rw [hpush.kept a (by rw [hesp]; exact ha) hlt, hmem a hlt]
  | .step op .after (.var x), code, rest, ρ, ρ', v, m, h, he, hinv, hD, hsafe => by
    obtain ⟨value, step, hvalue, hstep, rfl⟩ := lower_stepAfter.1 h
    obtain ⟨_, s, hx, hs, hp, rfl⟩ := stepCode_eq_ok.1 hstep
    cases hx
    obtain ⟨hv, hw⟩ := eval_stepAfter.1 he
    simp only [Code.ofInstrs_append, List.append_assoc] at hsafe ⊢
    obtain ⟨m₁, hsteps, hinv₁, hpush⟩ := steps_of_eval hc (e := .var x) hvalue
      (eval_var.2 ⟨hv, rfl⟩) hinv hD hsafe
    obtain ⟨m₂, hrun, hesp, hinv₂, hmem⟩ := hinv₁.step hc (by omega) hs hv hw env
    have hesp₁ := hpush.esp
    refine ⟨m₂, hsteps.trans (Code.Steps.of_run hrun), hinv₂, ?_, ?_, fun a ha hlt => ?_⟩
    · rw [hesp]
      exact hpush.esp
    · rw [hesp, ← hpush.top]
      refine Memory.load_congr_of_le ?_ fun a _ hlt => hmem a ?_
      · simp only [Width.bytes]
        omega
      · simp only [Width.bytes] at hlt
        omega
    · rw [hmem a hlt, hpush.kept a ha hlt]
  | .str _, _, _, _, _, _, _, _, he, _, _, _ | .addressOf _, _, _, _, _, _, _, _, he, _, _, _
  | .deref _, _, _, _, _, _, _, _, he, _, _, _ | .negate _, _, _, _, _, _, _, _, he, _, _, _
  | .call _ _, _, _, _, _, _, _, _, he, _, _, _ => by simp [eval] at he

end Expressions

end GLang
