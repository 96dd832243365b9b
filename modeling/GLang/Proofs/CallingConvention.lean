import GLang.Proofs.Effect
import GLang.Proofs.Execution
import GLang.Proofs.ParameterSlots
import Mathlib.Data.List.Forall2

/-!
# The calling convention

The caller pushes arguments, the last one first, each as many bytes as its value has. The callee
finds its parameters in slots of four bytes. The two agree because only the last parameter of a
function can be an aggregate: `Declarations.isPrimitive_of_get`.

A function with an aggregate result gets, in a slot before its parameters, the address of a place
that the caller has reserved below its own values. After the call that place is the top of the
caller's stack.

* `Expr.Passes`: an argument that pushes what a parameter takes.
* `Expr.exists_place_of_lowerArgs`: where each argument lies when the call is reached.
* `FunctionDecl.enters_of_returns`: where the code of a function looks for its parameters when it
  comes to its body.
* `Expr.lowerCall_convention`: what caller and callee agree on.
-/

namespace GLang

open Asm Gen

/-! ### Signatures of a program -/

theorem FunctionDecl.misplaced?_signature {structs : StructTable} {external : Bool}
    {decl : FunctionDecl} {f : FunctionSignature} (h : decl.signature structs external = .ok f) :
    misplaced? f.params = none := by
  obtain ⟨params, -, h⟩ := except_bind_eq_ok.1 h
  cases hm : misplaced? params with
  | some q =>
    simp only [hm] at h
    cases h
  | none =>
    simp only [hm] at h
    cases hr : decl.result with
    | none =>
      simp only [hr] at h
      cases h
      exact hm
    | some type =>
      simp only [hr] at h
      obtain ⟨t, -, h⟩ := except_bind_eq_ok.1 h
      cases h
      exact hm

theorem Declarations.forall_addFunctions {structs : StructTable} {P : FunctionSignature → Prop}
    (hP : ∀ (decl : FunctionDecl) external f, decl.signature structs external = .ok f → P f) :
    ∀ (items : List Item) (functions : FunctionTable), (∀ f ∈ functions.entries, P f) →
      ∀ f ∈ (addFunctions structs functions items).1.entries, P f := by
  intro items
  induction items with
  | nil => exact fun functions h => h
  | cons item items ih =>
    intro functions h
    rw [addFunctions]
    cases hf : item.function? with
    | none => exact ih functions h
    | some q =>
      obtain ⟨decl, external⟩ := q
      cases hs : decl.signature structs external with
      | error e =>
        simp only [hs]
        exact ih functions h
      | ok f =>
        simp only [hs]
        refine ih _ fun f' hf' => ?_
        unfold FunctionTable.insert at hf'
        split at hf'
        · exact h f' hf'
        · rcases List.mem_append.1 hf' with hf' | hf'
          · exact h f' hf'
          · rw [List.mem_singleton.1 hf']
            exact hP decl external f hs

theorem FunctionTable.mem_of_get {table : FunctionTable} {name : String} {f : FunctionSignature}
    (h : table.get name = .ok f) : f ∈ table.entries := by
  unfold get at h
  split at h
  · rename_i f' hf
    cases h
    exact List.mem_of_find?_eq_some hf
  · cases h

/-- **Only the last parameter can be an aggregate.** -/
theorem Declarations.isPrimitive_of_get {p : Program} {name : String} {f : FunctionSignature}
    (h : (Declarations.add {} p).1.functions.get name = .ok f) :
    ∀ q ∈ f.params.dropLast, q.2.isPrimitive := by
  have hall := forall_addFunctions (P := fun f => FunctionDecl.misplaced? f.params = none)
    (fun decl external f hf => FunctionDecl.misplaced?_signature hf) p.items {}
    (fun f hf => absurd hf List.not_mem_nil) f (FunctionTable.mem_of_get h)
  intro q hq
  have hnone := List.find?_eq_none.1 hall q (List.mem_reverse.2 hq)
  simpa using hnone

/-! ### Arguments -/

namespace Expr

variable {env : Environment} {ctx : Context}

/-- The expression can be passed for a parameter of type `t`: its code pushes, and its size is, what
such a parameter takes. -/
structure Passes (env : Environment) (ctx : Context) (e : Expr) (t : Ty) : Prop where
  size : e.pushedSize ctx = .ok t.stackSize
  pushes : ∀ value m m', e.lower ctx = .ok value → Instr.run env value m = some m' →
    m'.esp = m.esp - .ofNat 32 t.stackSize

theorem passes_of_fits (henv : env.Restores) {e : Expr} {t : Ty} (h : e.fits ctx (some t)) :
    e.Passes env ctx t where
  size := hasSize_iff.1 (Bool.and_eq_true_iff.1 h).2
  pushes _ _ _ hv hrun := esp_of_run_natCast henv (effects_of_fits h hv) hrun

theorem esp_of_lowerArgs {args : List Expr} {params : List (String × Ty)}
    (hargs : List.Forall₂ (fun e q => e.Passes env ctx q.2) args params) :
    ∀ {code : List Instr} {pushed : Nat} {m m' : Machine}, lowerArgs ctx args = .ok (code, pushed) →
      Instr.run env code m = some m' → m'.esp = m.esp - .ofNat 32 pushed := by
  induction hargs with
  | nil =>
    intro code pushed m m' h hrun
    obtain ⟨rfl, rfl⟩ := lowerArgs_nil.1 h
    cases hrun
    simp
  | @cons e q args params he hargs ih =>
    intro code pushed m m' h hrun
    obtain ⟨more, n, value, size, hm, hv, hs, rfl, rfl⟩ := lowerArgs_cons.1 h
    obtain ⟨m₁, hmore, hvalue⟩ := Instr.run_append_eq_some.1 hrun
    cases hs.symm.trans he.size
    rw [he.pushes value m₁ m' hv hvalue, ih hm hmore, BitVec.ofNat_add, BitVec.sub_sub,
      BitVec.add_comm (.ofNat 32 n)]

/-- **The lowest byte of the `i`-th argument is `4 * i` bytes above the top of the stack**, as all
arguments before it take four bytes. -/
theorem exists_place_of_lowerArgs {args : List Expr} {params : List (String × Ty)}
    (hargs : List.Forall₂ (fun e q => e.Passes env ctx q.2) args params) :
    ∀ {code : List Instr} {pushed : Nat} {m m' : Machine} {i : Nat} {e : Expr},
      lowerArgs ctx args = .ok (code, pushed) → Instr.run env code m = some m' →
      args[i]? = some e → (∀ q ∈ params.dropLast, q.2.isPrimitive) →
      ∃ first value rest m₁, code = first ++ value ++ rest ∧ e.lower ctx = .ok value ∧
        Instr.run env (first ++ value) m = some m₁ ∧ m₁.esp = m'.esp + .ofNat 32 (4 * i) := by
  induction hargs with
  | nil =>
    intro code pushed m m' i e h hrun hi
    simp at hi
  | @cons e₀ q args params he hargs ih =>
    intro code pushed m m' i e h hrun hi hprimitive
    obtain ⟨more, n, value, size, hm, hv, hs, rfl, rfl⟩ := lowerArgs_cons.1 h
    obtain ⟨m₁, hmore, hvalue⟩ := Instr.run_append_eq_some.1 hrun
    cases i with
    | zero =>
      obtain rfl : e₀ = e := by simpa using hi
      exact ⟨more, value, [], m', by simp, hv, hrun, by simp⟩
    | succ i =>
      have hi : args[i]? = some e := by simpa using hi
      -- There is a parameter after the first one, so the first one is no aggregate.
      have hne : params ≠ [] := by
        rintro rfl
        cases hargs
        simp at hi
      rw [List.dropLast_cons_of_ne_nil hne, List.forall_mem_cons] at hprimitive
      obtain ⟨hq, hparams⟩ := hprimitive
      obtain ⟨first, value', rest, m₂, rfl, hv', hrun', hesp⟩ := ih hm hmore hi hparams
      refine ⟨first, value', rest ++ value, m₂, by simp, hv', hrun', ?_⟩
      have hlast := he.pushes value m₁ m' hv hvalue
      rw [Ty.stackSize, if_pos hq] at hlast
      rw [hesp, hlast, Nat.mul_succ, BitVec.ofNat_add]
      bv_omega

end Expr

/-! ### The callee -/

theorem run_reserve (env : Environment) (m : Machine) (size : Nat) :
    ∃ m', Instr.run env (reserve size) m = some m' ∧ m'.ebp = m.ebp ∧ m'.memory = m.memory := by
  unfold reserve
  split
  · exact ⟨_, rfl, rfl, rfl⟩
  · exact ⟨m, rfl, rfl, rfl⟩

/-- How a function ends. -/
def FunctionDecl.leaveCode : Code :=
  [.label .returnPoint] ++ Code.ofInstrs [.move .esp .ebp, .pop .ebp, .ret]

/-- A function that is called comes to its body with its frame base eight bytes below the stack
pointer of the caller, and with what the caller has on its stack as it was. -/
theorem FunctionDecl.steps_frameCode (env : Environment) (name : String) (frame : Nat) (body : Code)
    (m : Machine) (r : Word) :
    ∃ inside, (frameCode name frame body).Steps env ⟨frameCode name frame body, m.push r⟩
        ⟨body ++ leaveCode, inside⟩ ∧
      inside.ebp = m.esp - 8 ∧
      inside.memory.load .dword m.esp = m.memory.load .dword m.esp := by
  obtain ⟨based, hbased, hebp, hload⟩ : ∃ based,
      Instr.run env [.pushReg .ebp, .move .ebp .esp] (m.push r) = some based ∧
      based.ebp = m.esp - 8 ∧ based.memory.load .dword m.esp = m.memory.load .dword m.esp := by
    refine ⟨_, rfl, ?_, Memory.load_congr fun b hb => ?_⟩
    · show m.esp - 4 - 4 = m.esp - 8
      bv_omega
    · have hb : (b - m.esp).toNat < 4 := hb
      show ((m.memory.store .dword (m.esp - 4) r).store .dword (m.esp - 4 - 4) m.ebp) b =
        m.memory b
      rw [Memory.store_of_le (show 4 ≤ _ by bv_omega), Memory.store_of_le (show 4 ≤ _ by bv_omega)]
  obtain ⟨inside, hinside, hebp', hmemory⟩ := run_reserve env based frame
  refine ⟨inside, ?_, hebp'.trans hebp, by rw [hmemory, hload]⟩
  let head : Code := Code.ofInstrs ([.pushReg .ebp, .move .ebp .esp] ++ reserve frame)
  have hcode : frameCode name frame body =
      .label (.named name) :: (head ++ (body ++ leaveCode)) := by
    simp [frameCode, leaveCode, head, Code.ofInstrs]
  have hlabel : (frameCode name frame body).Steps env
      ⟨.label (.named name) :: (head ++ (body ++ leaveCode)), m.push r⟩
      ⟨head ++ (body ++ leaveCode), m.push r⟩ := Code.Steps.label _
  have hhead : (frameCode name frame body).Steps env
      ⟨head ++ (body ++ leaveCode), m.push r⟩ ⟨body ++ leaveCode, inside⟩ :=
    Code.Steps.of_run (Instr.run_append_eq_some.2 ⟨based, hbased, hinside⟩)
  rw [← hcode] at hlabel
  exact hlabel.trans hhead

namespace FunctionSignature

variable {f : FunctionSignature} {d : Declarations} {entry : Context} {inside : Machine}
  {esp : Word}

theorem address_entry (h : f.entry d = .ok entry) {j : Nat} {x : String} {t : Ty}
    (hj : f.slots[j]? = some (x, t)) (hebp : inside.ebp = esp - 8) :
    ∃ s, entry.lookup x = .ok s ∧ s.type = t ∧
      inside.address s.address = esp + .ofNat 32 (4 * j) := by
  refine ⟨_, lookup_entry h hj, rfl, ?_⟩
  have hoffset : parameterStart - parameterSlot * j = -((8 + 4 * j : Nat) : Int) := by
    simp only [parameterStart, parameterSlot]
    omega
  show inside.ebp - .ofInt 32 (parameterStart - parameterSlot * j) = _
  rw [hebp, hoffset, sub_ofInt_neg, BitVec.ofInt_natCast, BitVec.ofNat_add]
  bv_omega

theorem address_param (h : f.entry d = .ok entry) {i : Nat} {x : String} {t : Ty}
    (hi : f.params[i]? = some (x, t)) (hebp : inside.ebp = esp - 8) :
    ∃ s, entry.lookup x = .ok s ∧ s.type = t ∧
      inside.address s.address = esp + .ofNat 32 (f.hiddenSize + 4 * i) := by
  unfold hiddenSize returnsAggregate
  cases ha : f.aggregate? with
  | none =>
    have hslot : f.slots[i]? = some (x, t) := by simpa [slots, ha] using hi
    simpa using address_entry h hslot hebp
  | some t' =>
    have hslot : f.slots[i + 1]? = some (x, t) := by simpa [slots, ha] using hi
    have hsize : 4 + 4 * i = 4 * (i + 1) := by omega
    simpa [hsize] using address_entry h hslot hebp

theorem address_resultSlot (h : f.entry d = .ok entry) {t : Ty} (ht : f.aggregate? = some t)
    (hebp : inside.ebp = esp - 8) :
    ∃ s, entry.lookup resultSlot = .ok s ∧ inside.address s.address = esp := by
  have hslot : f.slots[0]? = some (resultSlot, .pointer t) := by simp [slots, ht]
  obtain ⟨s, hs, -, haddress⟩ := address_entry h hslot hebp
  exact ⟨s, hs, by simpa using haddress⟩

end FunctionSignature

/-- **The code of a function, called with the stack pointer of `m`, comes to its body.** The names
of its parameters are then those of slots from the top of the caller's stack on, after the one for
an aggregate result. -/
theorem FunctionDecl.enters_of_returns {decl : FunctionDecl} {g g' : Generator} {callee : Code}
    {f : FunctionSignature} (h : Returns decl.lower g callee g')
    (hf : g.context.functions.get decl.name = .ok f) (env : Environment) :
    ∃ start body last frame, Returns (Stmt.lowerAll decl.body) start body last ∧
      callee = frameCode decl.name frame body ∧
      ∀ (m : Machine) (r : Word), ∃ inside,
        callee.Steps env ⟨callee, m.push r⟩ ⟨body ++ leaveCode, inside⟩ ∧
        (∀ (i : Nat) x t, f.params[i]? = some (x, t) → ∃ s, start.context.lookup x = .ok s ∧
          s.type = t ∧ inside.address s.address = m.esp + .ofNat 32 (f.hiddenSize + 4 * i)) ∧
        (∀ t, f.aggregate? = some t → ∃ s, start.context.lookup resultSlot = .ok s ∧
          inside.memory.load .dword (inside.address s.address) = m.memory.load .dword m.esp) := by
  obtain ⟨f', start, body, last, scope, _, hf', -, hstarts, hbody, -, rfl, -⟩ := body_of_returns h
  cases hf.symm.trans hf'
  refine ⟨start, body, last, scope.localSize, hbody, rfl, fun m r => ?_⟩
  obtain ⟨inside, hsteps, hebp, hload⟩ := steps_frameCode env decl.name scope.localSize body m r
  have hlookup := start.context.alike_bare.lookup
  refine ⟨inside, hsteps, fun i x t hparam => ?_, fun t ht => ?_⟩
  · rw [← hlookup]
    exact FunctionSignature.address_param hstarts.entry hparam hebp
  · obtain ⟨s, hs, haddress⟩ := FunctionSignature.address_resultSlot hstarts.entry ht hebp
    refine ⟨s, hlookup resultSlot ▸ hs, ?_⟩
    rw [haddress, hload]

/-! ### Calls -/

theorem top_of_run_passRoom {env : Environment} {f : FunctionSignature} {t : Ty}
    (ht : f.aggregate? = some t) {pushed : Nat} {m m₁ : Machine}
    (h : Instr.run env (f.passRoom pushed) m = some m₁) :
    m₁.memory.load .dword m₁.esp = m.esp + .ofNat 32 pushed := by
  simp only [FunctionSignature.passRoom, ht] at h
  cases h
  show (m.memory.store .dword (m.esp - 4) (m.esp + .ofNat 32 pushed)).load .dword (m.esp - 4) = _
  rw [Memory.load_store, Width.truncate_dword]

theorem esp_of_run_release {env : Environment} (henv : env.Restores) (f : FunctionSignature)
    (name : String) {pushes : List Instr} {pushed : Nat}
    (hpushes : ∀ m m₁, Instr.run env pushes m = some m₁ → m₁.esp = m.esp - .ofNat 32 pushed)
    (m m₁ : Machine) (hrun : Instr.run env (f.makeRoom ++ pushes ++ f.passRoom pushed ++
      [.call name] ++ release (pushed + f.hiddenSize)) m = some m₁) :
    m₁.esp = m.esp - .ofNat 32 f.roomSize := by
  have hcall : effects [.call name] = some ((0 : Nat) : Int) := rfl
  obtain ⟨c, hrun, hrelease⟩ := Instr.run_append_eq_some.1 hrun
  obtain ⟨c, hrun, hcalled⟩ := Instr.run_append_eq_some.1 hrun
  obtain ⟨b, hrun, hpass⟩ := Instr.run_append_eq_some.1 hrun
  obtain ⟨a, hroom, hpush⟩ := Instr.run_append_eq_some.1 hrun
  rw [esp_of_run henv (effects_release _) hrelease, esp_of_run_natCast henv hcall hcalled,
    esp_of_run_natCast henv (f.effects_passRoom pushed) hpass, hpushes a b hpush,
    esp_of_run_natCast henv f.effects_makeRoom hroom, sub_ofInt_neg, BitVec.ofInt_natCast,
    BitVec.ofNat_add]
  bv_omega

/-- **Caller and callee agree.** When the call is reached, the lowest byte of the `i`-th argument is
`4 * i` bytes above the top of the stack, behind the address for an aggregate result. The code of
the function that is called comes to its body with the names of its parameters at these addresses.
The address that it finds for an aggregate result is that of the room which the caller reserved
before it pushed the arguments, and that room is the top of the stack once the arguments are
dropped. The whole call leaves on the stack what is kept of the result. -/
theorem Expr.lowerCall_convention {p : Program} {ctx : Context} {name : String}
    {f : FunctionSignature} {args : List Expr} {keep : Bool} {code : List Instr} {env : Environment}
    (hctx : ctx.toDeclarations = (Declarations.add {} p).1) (hf : ctx.functions.get name = .ok f)
    (h : lowerCall ctx name args keep = .ok code) (henv : env.Restores)
    (hargs : List.Forall₂ (fun e q => e.Passes env ctx q.2) args f.params) :
    ∃ pushes pushed,
      code = f.makeRoom ++ pushes ++ f.passRoom pushed ++ [.call name] ++
        release (pushed + f.hiddenSize) ++ f.settleResult keep ∧
      (∀ m m₁, Instr.run env (f.makeRoom ++ pushes ++ f.passRoom pushed) m = some m₁ →
        ∀ i e, args[i]? = some e →
          ∃ first value rest m₂, pushes = first ++ value ++ rest ∧ e.lower ctx = .ok value ∧
            Instr.run env (f.makeRoom ++ (first ++ value)) m = some m₂ ∧
            m₂.esp = m₁.esp + .ofNat 32 (f.hiddenSize + 4 * i)) ∧
      (∀ (decl : FunctionDecl) (g : Generator) (callee : Code) (g' : Generator),
        decl.name = name → g.context.toDeclarations = ctx.toDeclarations →
        Returns decl.lower g callee g' →
        ∃ start body last frame, Returns (Stmt.lowerAll decl.body) start body last ∧
          callee = FunctionDecl.frameCode name frame body ∧
          ∀ m m₁ r, Instr.run env (f.makeRoom ++ pushes ++ f.passRoom pushed) m = some m₁ →
            ∃ inside, callee.Steps env ⟨callee, m₁.push r⟩
                ⟨body ++ FunctionDecl.leaveCode, inside⟩ ∧
              (∀ (i : Nat) x t, f.params[i]? = some (x, t) →
                ∃ s, start.context.lookup x = .ok s ∧ s.type = t ∧
                  inside.address s.address = m₁.esp + .ofNat 32 (f.hiddenSize + 4 * i)) ∧
              (∀ t, f.aggregate? = some t →
                ∃ s, start.context.lookup resultSlot = .ok s ∧
                  inside.memory.load .dword (inside.address s.address) =
                    m.esp - .ofNat 32 t.alignedSize)) ∧
      (∀ m m₁, Instr.run env (f.makeRoom ++ pushes ++ f.passRoom pushed ++ [.call name] ++
          release (pushed + f.hiddenSize)) m = some m₁ → m₁.esp = m.esp - .ofNat 32 f.roomSize) ∧
      (∀ m m₁, Instr.run env code m = some m₁ → m₁.esp = m.esp - .ofNat 32 (f.keptSize keep)) := by
  obtain ⟨f', pushes, pushed, hf', -, hlower, hkeep, rfl⟩ := lowerCall_eq_ok.1 h
  cases hf.symm.trans hf'
  have hregistered : (Declarations.add {} p).1.functions.get name = .ok f := by
    rw [← hctx]
    exact hf
  have hprimitive := Declarations.isPrimitive_of_get hregistered
  have hpushes : ∀ m m₁, Instr.run env pushes m = some m₁ → m₁.esp = m.esp - .ofNat 32 pushed :=
    fun m m₁ hrun => esp_of_lowerArgs hargs hlower hrun
  have hreleased := esp_of_run_release henv f name hpushes
  have hcode := callSequence_eq f name pushes pushed hkeep
  refine ⟨pushes, pushed, hcode, fun m m₁ hrun i e hi => ?_,
    fun decl g callee g' hname hg hcallee => ?_, hreleased, fun m m₁ hrun => ?_⟩
  · rw [List.append_assoc] at hrun
    obtain ⟨a, hroom, hrun⟩ := Instr.run_append_eq_some.1 hrun
    obtain ⟨b, hpush, hpass⟩ := Instr.run_append_eq_some.1 hrun
    obtain ⟨first, value, rest, m₂, hsplit, hvalue, hrun₂, hesp⟩ :=
      exists_place_of_lowerArgs hargs hlower hpush hi hprimitive
    refine ⟨first, value, rest, m₂, hsplit, hvalue,
      Instr.run_append_eq_some.2 ⟨a, hroom, hrun₂⟩, ?_⟩
    rw [hesp, esp_of_run_natCast henv (f.effects_passRoom pushed) hpass, BitVec.ofNat_add,
      ← BitVec.add_assoc, BitVec.sub_add_cancel]
  · subst hname
    have hdeclared : g.context.functions.get decl.name = .ok f := by
      rw [hg]
      exact hf
    obtain ⟨start, body, last, frame, hbody, hframe, henters⟩ :=
      FunctionDecl.enters_of_returns hcallee hdeclared env
    refine ⟨start, body, last, frame, hbody, hframe, fun m m₁ r hrun => ?_⟩
    obtain ⟨inside, hsteps, hparams, hresult⟩ := henters m₁ r
    refine ⟨inside, hsteps, hparams, fun t ht => ?_⟩
    obtain ⟨s, hs, hload⟩ := hresult t ht
    refine ⟨s, hs, ?_⟩
    rw [List.append_assoc] at hrun
    obtain ⟨a, hroom, hrun⟩ := Instr.run_append_eq_some.1 hrun
    obtain ⟨b, hpush, hpass⟩ := Instr.run_append_eq_some.1 hrun
    have hsize : f.roomSize = t.alignedSize := by rw [FunctionSignature.roomSize, ht]
    rw [hload, top_of_run_passRoom ht hpass, hpushes a b hpush, BitVec.sub_add_cancel,
      esp_of_run_natCast henv f.effects_makeRoom hroom, hsize]
  · rw [hcode] at hrun
    obtain ⟨a, hrun, hsettle⟩ := Instr.run_append_eq_some.1 hrun
    rw [esp_of_run henv (f.effects_settleResult hkeep) hsettle, hreleased m a hrun,
      ← BitVec.ofInt_natCast, ← BitVec.ofInt_natCast, BitVec.sub_sub, ← BitVec.ofInt_add]
    congr 2
    omega

/-- A call with an integer and an array of a function whose result is an array of eight bytes. Its
second parameter is eight bytes above what the call finds on top of the stack, and the room for its
result eight bytes below what was the top. -/
theorem Expr.lowerCall_convention_of_arrays :
    ∃ (p : Program) (ctx : Context) (f : FunctionSignature) (code : List Instr) (env : Environment)
      (decl : FunctionDecl) (callee body : Code) (g' start last : Generator),
      ctx.toDeclarations = (Declarations.add {} p).1 ∧ ctx.functions.get "g" = .ok f ∧
      lowerCall ctx "g" [.int 1, .var "v"] true = .ok code ∧ env.Restores ∧
      List.Forall₂ (fun e q => Passes env ctx e q.2) [.int 1, .var "v"] f.params ∧
      decl.name = "g" ∧ Returns decl.lower (Generator.start {} p).1 callee g' ∧
      Returns (Stmt.lowerAll decl.body) start body last ∧
      (∀ (m : Machine) (r : Word), ∃ (m₁ inside : Machine) (a result : Symbol),
        callee.Steps env ⟨callee, m₁.push r⟩ ⟨body ++ FunctionDecl.leaveCode, inside⟩ ∧
        start.context.lookup "a" = .ok a ∧ inside.address a.address = m₁.esp + 8 ∧
        start.context.lookup resultSlot = .ok result ∧
        inside.memory.load .dword (inside.address result.address) = m.esp - 8) ∧
      ∀ m m₁, Instr.run env code m = some m₁ → m₁.esp = m.esp - 8 := by
  let decl : FunctionDecl :=
    ⟨"g", [⟨"n", "i32"⟩, ⟨"a", "i32(3)"⟩], some "i32(2)",
      [.declare "r" "i32(2)" none, .ret (some (.var "r"))]⟩
  let p : Program := ⟨[.function decl]⟩
  let v : Symbol := ⟨"v", .array .int32 3, 12⟩
  let ctx : Context :=
    { toDeclarations := (Declarations.add {} p).1
      scopes := { scopes := [(Scope.empty 0 .function 0).add v 12] } }
  let f : FunctionSignature :=
    ⟨"g", [("n", .int32), ("a", .array .int32 3)], some (.array .int32 2), false⟩
  let env : Environment := ⟨fun _ => 0, fun _ m => some m⟩
  let code : List Instr := [.arith .sub .esp (.imm 8)] ++ v.pushCode ++ [.pushImm 1] ++
    [.lea .edx (.stack 16), .pushReg .edx, .call "g", .arith .add .esp (.imm 20)]
  have hf : ctx.functions.get "g" = .ok f := by decide +kernel
  have henv : env.Restores := by
    rintro name m m' h
    cases h
    exact ⟨rfl, rfl⟩
  have hargs : List.Forall₂ (fun e q => Passes env ctx e q.2) [.int 1, .var "v"] f.params :=
    .cons (passes_of_fits henv (by decide +kernel))
      (.cons (passes_of_fits henv (by decide +kernel)) .nil)
  have h : lowerCall ctx "g" [.int 1, .var "v"] true = .ok code := by decide +kernel
  obtain ⟨callee, g', hcallee⟩ :
      ∃ callee g', Returns decl.lower (Generator.start {} p).1 callee g' := by
    have hok : (decl.lower.run.run (Generator.start {} p).1).1.isOk := by decide +kernel
    cases hrun : decl.lower.run.run (Generator.start {} p).1 with
    | mk result g' =>
      rw [hrun] at hok
      cases result with
      | ok callee => exact ⟨callee, g', hrun⟩
      | error e => cases hok
  obtain ⟨pushes, pushed, hcode, -, hcalled, -, hnet⟩ :=
    lowerCall_convention (p := p) rfl hf h henv hargs
  obtain ⟨start, body, last, -, hbody, -, henters⟩ := hcalled decl _ callee g' rfl rfl hcallee
  refine ⟨p, ctx, f, code, env, decl, callee, body, g', start, last, rfl, hf, h, henv, hargs, rfl,
    hcallee, hbody, fun m r => ?_, hnet⟩
  obtain ⟨m', hrun⟩ : ∃ m', Instr.run env code m = some m' := ⟨_, rfl⟩
  rw [hcode, List.append_assoc, List.append_assoc] at hrun
  obtain ⟨m₁, hrun, -⟩ := Instr.run_append_eq_some.1 hrun
  obtain ⟨inside, hsteps, hparams, hresult⟩ := henters m m₁ r hrun
  obtain ⟨a, ha, -, haddress⟩ := hparams 1 "a" (.array .int32 3) rfl
  obtain ⟨result, hlookup, hload⟩ := hresult (.array .int32 2) (by decide +kernel)
  exact ⟨m₁, inside, a, result, hsteps, ha, haddress, hlookup, hload⟩

end GLang
