import GLang.Proofs.Simulation

/-!
# Functions at work

An `Activation` is a function that is being executed: its frame, its code and what surrounds it. The
semantics says how a statement ends, and `Activation.Ends` what that means for the machine:

* at its end, the code that follows is reached with the same stack pointer,
* a `break` or a `continue` has come to a jump to the label of its loop, with the stack pointer
  raised by what the blocks inside the loop reserve,
* a `return` has come to a jump to the return point, with the value in `eax`.

In each case the variables are in their slots. `Activation.Ready` is what a statement starts from,
and `Activation.Site` the place of its code in the code of the function.
-/

namespace GLang

open Asm

/-! ### Stack space -/

section Space

variable {code rest : Code} {env : Environment} {m : Machine} {size : Nat}

theorem Asm.Code.Safe.exists_reserve
    (h : code.Safe env ⟨Code.ofInstrs (reserve size) ++ rest, m⟩) :
    size ≤ m.esp.toNat ∧ ∃ m', code.Steps env ⟨Code.ofInstrs (reserve size) ++ rest, m⟩ ⟨rest, m'⟩ ∧
      m'.esp = m.esp - .ofNat 32 size ∧ m'.ebp = m.ebp ∧ m'.memory = m.memory := by
  unfold reserve at h ⊢
  by_cases hpos : 0 < size
  · rw [if_pos hpos] at h ⊢
    have hroom := h.room (d := size) rfl
    refine ⟨by omega, _, Code.Steps.of_run rfl, ?_, rfl, rfl⟩
    rw [← BitVec.ofInt_natCast]
    rfl
  · obtain rfl : size = 0 := by omega
    rw [if_neg hpos] at h ⊢
    exact ⟨Nat.zero_le _, m, .refl, by simp, rfl, rfl⟩

theorem exists_release (code rest : Code) (env : Environment) (m : Machine) (size : Nat) :
    ∃ m', code.Steps env ⟨Code.ofInstrs (release size) ++ rest, m⟩ ⟨rest, m'⟩ ∧
      m'.esp = m.esp + .ofNat 32 size ∧ m'.ebp = m.ebp ∧ m'.memory = m.memory := by
  unfold release
  by_cases hpos : 0 < size
  · rw [if_pos hpos]
    refine ⟨_, Code.Steps.of_run rfl, ?_, rfl, rfl⟩
    rw [← BitVec.ofInt_natCast]
    rfl
  · obtain rfl : size = 0 := by omega
    rw [if_neg hpos]
    exact ⟨m, .refl, by simp, rfl, rfl⟩

/-- A machine word does not see that a sum has wrapped around. -/
theorem ofNat_wordSum (sizes : List Nat) :
    (.ofNat 32 (wordSum sizes) : Word) = .ofNat 32 sizes.sum := by
  apply BitVec.eq_of_toNat_eq
  simp [wordSum]

theorem run_arith (env : Environment) (m : Machine) (op : Arith) (k : Int) :
    ∃ m', Instr.run env [.arith op .eax (.imm k)] m = some m' ∧
      m'.flags = (op.compute m.eax (.ofInt 32 k)).2 ∧ m'.esp = m.esp ∧ m'.ebp = m.ebp ∧
      m'.memory = m.memory :=
  ⟨_, rfl, rfl, rfl, rfl, rfl⟩

/-- A jump goes to the one place where its label stands. -/
theorem Asm.Code.target_of_suffix {l : Label} (hnodup : code.labels.Nodup)
    (h : .label l :: rest <:+ code) : code.target l = some (.label l :: rest) := by
  obtain ⟨before, rfl⟩ := h
  refine Code.target_append (fun hl => ?_) rest
  rw [Code.labels_append, Code.labels_label] at hnodup
  exact (List.nodup_append'.1 hnodup).2.2 hl List.mem_cons_self

end Space

/-! ### Frames and blocks -/

namespace Frame

variable {fr : Frame} {ctx ctx' : Context} {ρ ρ' ρ₀ : Env} {m m' m₀ : Machine}

theorem Inv.of_eq (h : fr.Inv ctx ρ m) (hebp : m'.ebp = m.ebp) (hmem : m'.memory = m.memory) :
    fr.Inv ctx ρ m' := by
  refine ⟨h.laid, hebp.trans h.base, ?_, ?_⟩ <;> rw [hmem]
  · exact h.vars
  · exact h.kept

theorem Inv.length_eq (h : fr.Inv ctx ρ m) : ctx.symbols.length = ρ.length :=
  h.vars.length_eq

theorem Inv.enter (h : fr.Inv ctx ρ m) {kind : ScopeKind}
    (hkind : kind = .branch ∨ kind = .forLoop ∨ kind = .whileLoop) :
    fr.Inv (ctx.enter kind) ρ m := by
  refine ⟨h.laid.enter hkind, h.base, ?_, h.kept⟩
  rw [Context.symbols_enter]
  exact h.vars

/-- The variables of `ctx` are in their slots; there may be newer ones. -/
def Holding (fr : Frame) (ctx : Context) (ρ : Env) (m : Machine) : Prop :=
  fr.Inv ctx (ρ.drop (ρ.length - ctx.symbols.length)) m

theorem Inv.holding (h : fr.Inv ctx ρ m) : fr.Holding ctx ρ m := by
  unfold Holding
  rw [h.length_eq, Nat.sub_self, List.drop_zero]
  exact h

theorem Holding.of_eq (h : fr.Holding ctx ρ m) (hebp : m'.ebp = m.ebp)
    (hmem : m'.memory = m.memory) : fr.Holding ctx ρ m' :=
  Inv.of_eq h hebp hmem

/-- From a block to the block around it. -/
theorem Holding.outward (h : fr.Holding ctx' ρ m) (hl : ctx.Laid fr.params)
    (hs : ctx.symbols <:+ ctx'.symbols) : fr.Holding ctx ρ m := by
  obtain ⟨new, hnew⟩ := hs
  have hlen := h.length_eq
  have hlen' := congrArg List.length hnew
  rw [List.length_drop] at hlen
  rw [List.length_append] at hlen'
  refine ⟨hl, h.base, ?_, h.kept⟩
  have hdrop := List.forall₂_drop new.length h.vars
  rw [← hnew, List.drop_left, List.drop_drop, hnew] at hdrop
  have hindex : ρ.length - ctx'.symbols.length + new.length = ρ.length - ctx.symbols.length := by
    omega
  rw [← hindex]
  exact hdrop

/-- At the end of a block its variables are forgotten. -/
theorem Holding.forget (h : fr.Holding ctx ρ' m) (h₀ : fr.Inv ctx ρ m₀) :
    fr.Inv ctx (ρ'.forget ρ) m := by
  unfold Env.forget
  rw [← h₀.length_eq]
  exact h

/-- A variable without a value. -/
theorem Inv.declared (h : fr.Inv ctx ρ m) {x type : String} {t : Ty} {symbol : Symbol}
    {scopes : ScopeStack} (ht : ctx.typeOf type = .ok t) (hp : t.isPrimitive)
    (hd : ctx.scopes.declare x t = .ok (symbol, scopes)) :
    fr.Inv (ctx.declared x type) (⟨x, t.width, none⟩ :: ρ) m ∧
      (ctx.declared x type).symbols.find? (·.name == x) = some symbol := by
  obtain ⟨hl, hsymbols, rfl, rfl⟩ := h.laid.declared ht hp hd
  refine ⟨⟨hl, h.base, ?_, h.kept⟩, by simp [hsymbols]⟩
  rw [hsymbols]
  exact .cons ⟨rfl, rfl, nofun⟩ h.vars

/-! ### Values on the stack -/

variable {D : Nat} {v : Word} (env : Environment)

theorem Pushed.esp_eq (h : fr.Pushed D m m' v) : m'.esp + 4 = m.esp := by
  have := h.esp
  bv_omega

/-- The value of an expression is taken off the stack. -/
theorem Pushed.run_pop (h : fr.Pushed D m m' v) (hinv : fr.Inv ctx ρ m') :
    ∃ m₁, Instr.run env [.pop .eax] m' = some m₁ ∧ m₁.eax = v ∧ m₁.esp = m.esp ∧
      fr.Inv ctx ρ m₁ :=
  ⟨_, rfl, h.top, h.esp_eq, hinv.of_eq rfl rfl⟩

/-- The value of an expression is stored in a variable. -/
theorem Pushed.run_storeCode (h : fr.Pushed D m m' v) (hinv : fr.Inv ctx ρ m')
    (hc : ctx.cursor ≤ D) (hD : D ≤ fr.base.toNat) {x : String} {s : Symbol}
    (hfind : ctx.symbols.find? (·.name == x) = some s) (hw : ρ.write x v = some ρ') :
    ∃ m₁, Instr.run env s.storeCode m' = some m₁ ∧ m₁.esp = m.esp ∧ fr.Inv ctx ρ' m₁ := by
  have hp := hinv.laid.primitive s (List.mem_of_find?_eq_some hfind)
  obtain ⟨m₁, hrun, hesp, hebp, hmem⟩ := s.run_storeCode env m' hp
  rw [h.top] at hmem
  exact ⟨m₁, hrun, hesp.trans h.esp_eq, hinv.write hc hD hfind hw rfl hebp hmem⟩

end Frame

/-! ### Activations -/

/-- A function at work: its frame, its code and what surrounds it. -/
structure Activation extends Frame where
  code : Code
  env : Environment
  /-- The bytes that each placeholder in the code of a phrase drops. -/
  drops : Nat → Nat
  result : Option Ty
  structs : StructTable
  labels_nodup : code.labels.Nodup
  result_isPrimitive : ∀ t, result = some t → t.isPrimitive

namespace Activation

/-- `s'` is reached from `s`. -/
def Reaches (A : Activation) (s s' : State) : Prop :=
  A.code.Steps A.env s s'

/-- What the code of a phrase starts from: variables in their slots, the stack pointer `D` bytes
below the frame base, and enough stack for all that comes. -/
structure Ready (A : Activation) (D : Nat) (ctx : Context) (ρ : Env) (s : State) : Prop where
  inv : A.Inv ctx ρ s.machine
  depth : s.machine.esp.toNat + D = A.base.toNat
  safe : A.code.Safe A.env s

/-- **How a phrase ends.** It started at `s`; `after` is the context after it, `rest` what follows
it, and `esp` the stack pointer that is expected there. -/
def Ends (A : Activation) (exit : Option Exit) (ctx after : Context) (esp : Word) (rest : Code)
    (s : State) : Outcome → Env → Prop
  | .normal, ρ => ∃ m, A.Reaches s ⟨rest, m⟩ ∧ m.esp = esp ∧ A.Inv after ρ m
  | .broke, ρ => ∃ e c m, exit = some e ∧
      A.Reaches s ⟨.instr (.jump e.labels.breakTo) :: c, m⟩ ∧
      m.esp = esp + .ofNat 32 e.blocks.sum ∧ A.Holding ctx ρ m
  | .continued, ρ => ∃ e c m, exit = some e ∧
      A.Reaches s ⟨.instr (.jump e.labels.continueTo) :: c, m⟩ ∧
      m.esp = esp + .ofNat 32 e.blocks.dropLast.sum ∧ A.Holding ctx ρ m
  | .returned v, ρ => ∃ c m, A.Reaches s ⟨.instr (.jump .returnPoint) :: c, m⟩ ∧
      (∀ w, v = some w → m.eax = w) ∧ A.Holding ctx ρ m

/-- The place of the code of a phrase, which has `D` bytes below the frame base. -/
structure Site (A : Activation) (exit : Option Exit) (ctx : Context) (p : Phrase) (code rest : Code)
    (D : Nat) : Prop where
  emits : ∃ n n', Emits A.drops A.result exit ctx n p code n'
  place : code.resolve A.drops ++ rest <:+ A.code
  structs : ctx.structs = A.structs
  room : (p.past ctx).cursor ≤ D
  blocks : ∀ e, exit = some e → e.blocks ≠ []

/-- A context in the function, inside blocks that take `D` bytes. -/
structure Fits (A : Activation) (exit : Option Exit) (ctx : Context) (D : Nat) : Prop where
  structs : ctx.structs = A.structs
  room : ctx.cursor ≤ D
  blocks : ∀ e, exit = some e → e.blocks ≠ []

/-- The code of a phrase does what the semantics says, wherever it stands. -/
def Simulates (A : Activation) (p : Phrase) (ρ : Env) (o : Outcome) (ρ' : Env) : Prop :=
  ∀ ⦃exit ctx code rest D m⦄, A.Site exit ctx p code rest D →
    A.Ready D ctx ρ ⟨code.resolve A.drops ++ rest, m⟩ →
    A.Ends exit ctx (p.past ctx) m.esp rest ⟨code.resolve A.drops ++ rest, m⟩ o ρ'

variable {A : Activation} {exit : Option Exit} {ctx ctx' after after' : Context} {esp : Word}
  {rest rest' : Code} {s s' : State} {o : Outcome} {ρ ρ' : Env} {D : Nat} {m m' : Machine}

namespace Reaches

theorem refl : A.Reaches s s :=
  Relation.ReflTransGen.refl

theorem trans {s₁ s₂ s₃ : State} (h : A.Reaches s₁ s₂) (h' : A.Reaches s₂ s₃) : A.Reaches s₁ s₃ :=
  Relation.ReflTransGen.trans h h'

theorem label {l : Label} (h : A.Reaches s ⟨.label l :: rest, m⟩) : A.Reaches s ⟨rest, m⟩ :=
  h.trans (Code.Steps.label l)

/-- On to where a jump goes. -/
theorem jump {l : Label} {c : Code} (h : A.Reaches s ⟨.instr (.jump l) :: c, m⟩)
    (hl : A.code.target l = some (.label l :: rest)) : A.Reaches s ⟨rest, m⟩ :=
  (h.trans (Code.Steps.jump hl)).label

end Reaches

namespace Ready

theorem next (h : A.Ready D ctx ρ s) (hs : A.Reaches s s')
    (hesp : s'.machine.esp = s.machine.esp) (hinv : A.Inv ctx' ρ' s'.machine) :
    A.Ready D ctx' ρ' s' :=
  ⟨hinv, by rw [hesp]; exact h.depth, h.safe.of_steps hs⟩

theorem le_base (h : A.Ready D ctx ρ s) : D ≤ A.base.toNat := by
  have := h.depth
  omega

end Ready

namespace Ends

theorem of_reaches (hs : A.Reaches s s') (h : A.Ends exit ctx after esp rest s' o ρ) :
    A.Ends exit ctx after esp rest s o ρ := by
  cases o with
  | normal =>
    obtain ⟨m, hm, h⟩ := h
    exact ⟨m, hs.trans hm, h⟩
  | broke =>
    obtain ⟨e, c, m, he, hm, h⟩ := h
    exact ⟨e, c, m, he, hs.trans hm, h⟩
  | continued =>
    obtain ⟨e, c, m, he, hm, h⟩ := h
    exact ⟨e, c, m, he, hs.trans hm, h⟩
  | returned v =>
    obtain ⟨c, m, hm, h⟩ := h
    exact ⟨c, m, hs.trans hm, h⟩

/-- From a context to an outer one. What is expected after the phrase matters only if it comes to
its end. -/
theorem outward (h : A.Ends exit ctx' after' esp rest' s o ρ) (hl : ctx.Laid A.params)
    (hs : ctx.symbols <:+ ctx'.symbols) (ho : o = .normal → after' = after ∧ rest' = rest) :
    A.Ends exit ctx after esp rest s o ρ := by
  cases o with
  | normal =>
    obtain ⟨rfl, rfl⟩ := ho rfl
    exact h
  | broke =>
    obtain ⟨e, c, m, he, hm, hesp, hold⟩ := h
    exact ⟨e, c, m, he, hm, hesp, hold.outward hl hs⟩
  | continued =>
    obtain ⟨e, c, m, he, hm, hesp, hold⟩ := h
    exact ⟨e, c, m, he, hm, hesp, hold.outward hl hs⟩
  | returned v =>
    obtain ⟨c, m, hm, heax, hold⟩ := h
    exact ⟨c, m, hm, heax, hold.outward hl hs⟩

end Ends

theorem Site.fits {p : Phrase} {code : Code} (h : A.Site exit ctx p code rest D)
    (hl : ctx.Laid A.params) : A.Fits exit ctx D := by
  obtain ⟨start, hblock⟩ := hl.block
  have hcursor : ctx.cursor ≤ (p.past ctx).cursor := by
    cases p with
    | stmt s => exact (hblock.past s).2
    | seq body => exact (hblock.pastAll body).2
    | clause s => exact (hblock.pastClause s).2
    | arm | arms | otherwise => exact Int.le_refl _
  exact ⟨h.structs, Int.le_trans hcursor h.room, h.blocks⟩

/-! ### Simple statements -/

section Simple

variable {e : Expr} {code : List Instr} {v : Word}

theorem Ready.eval (h : A.Ready D ctx ρ ⟨Code.ofInstrs code ++ rest, m⟩) (hc : ctx.cursor ≤ D)
    (hcode : e.lower ctx = .ok code) (he : e.eval ρ = some (v, ρ')) :
    ∃ m', A.Reaches ⟨Code.ofInstrs code ++ rest, m⟩ ⟨rest, m'⟩ ∧ A.Inv ctx ρ' m' ∧
      A.Pushed D m m' v :=
  Expr.steps_of_eval hc hcode he h.inv (Nat.le_of_eq h.depth) h.safe

theorem Reaches.run (is : List Instr) (h : A.Reaches s ⟨Code.ofInstrs is ++ rest, m⟩)
    (hrun : Instr.run A.env is m = some m') : A.Reaches s ⟨rest, m'⟩ :=
  h.trans (Code.Steps.of_run hrun)

/-- A conditional jump on the value of an expression. -/
theorem Ready.jumpOn {op : Arith} {k : Int} {i : Instr} {l : Label} {c : Code}
    (h : A.Ready D ctx ρ
      ⟨Code.ofInstrs (code ++ [.pop .eax, .arith op .eax (.imm k), i]) ++ rest, m⟩)
    (hc : ctx.cursor ≤ D) (hcode : e.lower ctx = .ok code) (he : e.eval ρ = some (v, ρ'))
    (hi : i = .jumpZero l ∨ i = .jumpEqual l) (hl : A.code.target l = some (.label l :: c)) :
    ∃ m', A.Reaches ⟨Code.ofInstrs (code ++ [.pop .eax, .arith op .eax (.imm k), i]) ++ rest, m⟩
        ⟨if (op.compute v (.ofInt 32 k)).2.zero then c else rest, m'⟩ ∧
      m'.esp = m.esp ∧ A.Inv ctx ρ' m' := by
  simp only [Code.ofInstrs_append, List.append_assoc] at h ⊢
  obtain ⟨m₁, hreach, hinv, hpush⟩ := h.eval hc hcode he
  obtain ⟨m₂, hrun, heax, hesp, hinv⟩ := hpush.run_pop A.env hinv
  obtain ⟨m₃, hflags, hzero, hesp₃, hebp₃, hmem₃⟩ := run_arith A.env m₂ op k
  have hreach := (hreach.run [.pop .eax] hrun).run [.arith op .eax (.imm k)] hflags
  rw [heax] at hzero
  refine ⟨m₃, ?_, hesp₃.trans hesp, hinv.of_eq hebp₃ hmem₃⟩
  by_cases hz : (op.compute v (.ofInt 32 k)).2.zero
  · rw [if_pos hz]
    exact (hreach.trans (Code.Steps.jump_of_zero hi (hzero ▸ hz) hl)).label
  · rw [if_neg hz]
    exact hreach.trans (Code.Steps.pass_of_not_zero hi (hzero ▸ Bool.eq_false_iff.2 hz))

theorem simulates_declare {x type : String} {t : Ty}
    (ht : Ty.ofDescriptor A.structs type = .ok t) (hp : t.isPrimitive) :
    A.Simulates (.stmt (.declare x type none)) ρ .normal (⟨x, t.width, none⟩ :: ρ) := by
  intro exit ctx code rest D m hsite hready
  obtain ⟨n, n', hemits⟩ := hsite.emits
  rw [← hsite.structs] at ht
  cases hemits with
  | declare ht' hd =>
    cases ht.symm.trans ht'
    exact ⟨m, .refl, rfl, (hready.inv.declared ht hp hd).1⟩

theorem simulates_declareInit {x type : String} {t : Ty}
    (ht : Ty.ofDescriptor A.structs type = .ok t) (hp : t.isPrimitive)
    (he : e.eval ρ = some (v, ρ')) :
    A.Simulates (.stmt (.declare x type (some e))) ρ .normal
      (⟨x, t.width, some (t.width.truncate v)⟩ :: ρ') := by
  intro exit ctx code rest D m hsite hready
  obtain ⟨n, n', hemits⟩ := hsite.emits
  rw [← hsite.structs] at ht
  cases hemits with
  | @declareInit _ _ _ _ _ _ _ value symbol _ ht' hv hd =>
    cases ht.symm.trans ht'
    have hroom := (hsite.fits hready.inv.laid).room
    simp only [Code.ofInstrs_append, Code.resolve_append, Code.resolve_ofInstrs,
      List.append_assoc] at hready ⊢
    obtain ⟨m₁, hreach, hinv, hpush⟩ := hready.eval hroom hv he
    -- The slot is there already, without a value; then the value is stored.
    obtain ⟨hinv, hfind⟩ := hinv.declared ht hp hd
    obtain ⟨m₂, hrun, hesp, hinv⟩ := hpush.run_storeCode A.env hinv hsite.room hready.le_base hfind
      (show _ = some (⟨x, t.width, some (t.width.truncate v)⟩ :: ρ') by simp [Env.write])
    exact ⟨m₂, hreach.run _ hrun, hesp, hinv⟩

theorem simulates_assign {x : String} {ρ₁ ρ₂ : Env} (he : e.eval ρ = some (v, ρ₁))
    (hx : ρ₁.write x v = some ρ₂) : A.Simulates (.stmt (.assign x e)) ρ .normal ρ₂ := by
  intro exit ctx code rest D m hsite hready
  obtain ⟨n, n', hemits⟩ := hsite.emits
  cases hemits with
  | assign hv hx' =>
    have hroom : ctx.cursor ≤ D := hsite.room
    simp only [Code.ofInstrs_append, Code.resolve_append, Code.resolve_ofInstrs,
      List.append_assoc] at hready ⊢
    obtain ⟨m₁, hreach, hinv, hpush⟩ := hready.eval hroom hv he
    obtain ⟨m₂, hrun, hesp, hinv⟩ := hpush.run_storeCode A.env hinv hroom hready.le_base
      (hinv.laid.find? hx') hx
    exact ⟨m₂, hreach.run _ hrun, hesp, hinv⟩

theorem simulates_step {op : StepOp} {x : String} (hv : ρ.read x = some v)
    (hx : ρ.write x (op.apply v) = some ρ') : A.Simulates (.stmt (.step op x)) ρ .normal ρ' := by
  intro exit ctx code rest D m hsite hready
  obtain ⟨n, n', hemits⟩ := hsite.emits
  cases hemits with
  | step hx' hp =>
    simp only [Code.resolve_ofInstrs] at hready ⊢
    obtain ⟨m₁, hrun, hesp, hinv, -⟩ :=
      hready.inv.step hsite.room hready.le_base hx' hv hx A.env
    exact ⟨m₁, Reaches.run _ .refl hrun, hesp, hinv⟩

theorem simulates_break : A.Simulates (.stmt .breakLoop) ρ .broke ρ := by
  intro exit ctx code rest D m hsite hready
  obtain ⟨n, n', hemits⟩ := hsite.emits
  cases hemits with
  | @breakLoop e ctx n k hk =>
    obtain ⟨m₁, hreach, hesp, hebp, hmem⟩ := exists_release A.code
      (.instr (.jump e.labels.breakTo) :: rest) A.env m (wordSum e.blocks)
    have hcode : Code.resolve A.drops [.cleanup k, .instr (.jump e.labels.breakTo)] ++ rest =
        Code.ofInstrs (release (wordSum e.blocks)) ++ .instr (.jump e.labels.breakTo) :: rest := by
      simp [hk]
    rw [ofNat_wordSum] at hesp
    rw [hcode]
    exact ⟨e, rest, m₁, rfl, hreach, hesp, (hready.inv.of_eq hebp hmem).holding⟩

theorem simulates_continue : A.Simulates (.stmt .continueLoop) ρ .continued ρ := by
  intro exit ctx code rest D m hsite hready
  obtain ⟨n, n', hemits⟩ := hsite.emits
  cases hemits with
  | @continueLoop e ctx n hzero =>
    have hsum : (.ofNat 32 e.blocks.dropLast.sum : Word) = 0 := by
      rw [← ofNat_wordSum, hzero]
      rfl
    exact ⟨e, rest, m, rfl, .refl, by simp [hsum], hready.inv.holding⟩

theorem simulates_ret : A.Simulates (.stmt (.ret none)) ρ (.returned none) ρ := by
  intro exit ctx code rest D m hsite hready
  obtain ⟨n, n', hemits⟩ := hsite.emits
  cases hemits with
  | ret => exact ⟨rest, m, .refl, nofun, hready.inv.holding⟩

theorem returnCode_eq {take : List Instr} (h : ctx.returnCode A.result = .ok take) :
    take = [.pop .eax] := by
  unfold Context.returnCode at h
  cases hresult : A.result with
  | none =>
    rw [hresult] at h
    exact (Except.ok.inj h).symm
  | some t =>
    rw [hresult] at h
    simp only [A.result_isPrimitive t hresult, if_true] at h
    exact (Except.ok.inj h).symm

theorem simulates_retValue (he : e.eval ρ = some (v, ρ')) :
    A.Simulates (.stmt (.ret (some e))) ρ (.returned (some v)) ρ' := by
  intro exit ctx code rest D m hsite hready
  obtain ⟨n, n', hemits⟩ := hsite.emits
  cases hemits with
  | retValue hv ht =>
    cases returnCode_eq ht
    simp only [Code.resolve_append, Code.resolve_ofInstrs, Code.ofInstrs_append,
      List.append_assoc] at hready ⊢
    obtain ⟨m₁, hreach, hinv, hpush⟩ := hready.eval hsite.room hv he
    obtain ⟨m₂, hrun, heax, -, hinv⟩ := hpush.run_pop A.env hinv
    refine ⟨rest, m₂, hreach.run _ hrun, fun w hw => ?_, hinv.holding⟩
    cases hw
    exact heax

end Simple

/-! ### Sequences and blocks -/

section Blocks

variable {body : List Stmt} {ρ₁ ρ₂ : Env}

theorem simulates_seqNil : A.Simulates (.seq []) ρ .normal ρ := by
  intro exit ctx code rest D m hsite hready
  obtain ⟨n, n', hemits⟩ := hsite.emits
  cases hemits with
  | seqNil => exact ⟨m, .refl, rfl, hready.inv⟩

/-- The first statement of a sequence, at its place. -/
theorem Site.head {first : Stmt} {code : Code}
    (h : A.Site exit ctx (.seq (first :: body)) code rest D) (hl : ctx.Laid A.params) :
    ∃ c more, code = c ++ more ∧
      A.Site exit ctx (.stmt first) c (more.resolve A.drops ++ rest) D ∧
      A.Site exit (ctx.past first) (.seq body) more rest D := by
  obtain ⟨n, n', hemits⟩ := h.emits
  obtain ⟨start, hblock⟩ := hl.block
  have hplace := h.place
  cases hemits with
  | @seqCons _ _ _ _ _ _ _ c more hs hrest =>
    rw [Code.resolve_append, List.append_assoc] at hplace
    have hcursor : (ctx.past first).cursor ≤ ((ctx.past first).pastAll body).cursor :=
      ((hblock.past first).1.pastAll body).2
    refine ⟨c, more, rfl, ⟨⟨_, _, hs⟩, hplace, h.structs, Int.le_trans hcursor h.room, h.blocks⟩,
      ⟨_, _, hrest⟩, (List.suffix_append _ _).trans hplace, ?_, h.room, h.blocks⟩
    rw [(Context.adds_past ctx first).structs, h.structs]

theorem simulates_seqNext {first : Stmt} (hfirst : A.Simulates (.stmt first) ρ .normal ρ₁)
    (hbody : A.Simulates (.seq body) ρ₁ o ρ₂) : A.Simulates (.seq (first :: body)) ρ o ρ₂ := by
  intro exit ctx code rest D m hsite hready
  obtain ⟨c, more, rfl, hsite₁, hsite₂⟩ := hsite.head hready.inv.laid
  rw [Code.resolve_append, List.append_assoc] at hready ⊢
  obtain ⟨m₁, hreach, hesp, hinv⟩ := hfirst hsite₁ hready
  have hends := hbody hsite₂ (hready.next hreach hesp hinv)
  rw [hesp] at hends
  exact (hends.outward hready.inv.laid (Context.adds_past ctx first).symbols
    fun _ => ⟨rfl, rfl⟩).of_reaches hreach

theorem simulates_seqStop {first : Stmt} (hfirst : A.Simulates (.stmt first) ρ o ρ')
    (ho : o ≠ .normal) : A.Simulates (.seq (first :: body)) ρ o ρ' := by
  intro exit ctx code rest D m hsite hready
  obtain ⟨c, more, rfl, hsite₁, -⟩ := hsite.head hready.inv.laid
  rw [Code.resolve_append, List.append_assoc] at hready ⊢
  exact (hfirst hsite₁ hready).outward hready.inv.laid (List.suffix_refl _) fun h => absurd h ho

/-- A block takes its bytes off the stack. -/
theorem Ready.reserve {size : Nat}
    (h : A.Ready D ctx ρ ⟨Code.ofInstrs (Asm.reserve size) ++ rest, m⟩) (kind : ScopeKind)
    (hkind : kind = .branch ∨ kind = .forLoop ∨ kind = .whileLoop) :
    ∃ m', A.Reaches ⟨Code.ofInstrs (Asm.reserve size) ++ rest, m⟩ ⟨rest, m'⟩ ∧
      m'.esp = m.esp - .ofNat 32 size ∧ A.Ready (D + size) (ctx.enter kind) ρ ⟨rest, m'⟩ := by
  obtain ⟨hle, m', hreach, hesp, hebp, hmem⟩ := h.safe.exists_reserve
  have hdepth : m.esp.toNat + D = A.base.toNat := h.depth
  refine ⟨m', hreach, hesp, (h.inv.enter hkind).of_eq hebp hmem, ?_, h.safe.of_steps hreach⟩
  show m'.esp.toNat + (D + size) = A.base.toNat
  rw [hesp]
  bv_omega

/-- **A block ends as its statements do**, with its variables forgotten and its bytes given back. -/
theorem ends_block {size : Nat} {code : Code} {n n' : LabelCounters}
    (hbody : A.Simulates (.seq body) ρ o ρ')
    (hsize : ((ctx.enter .branch).pastAll body).frameSize = size)
    (hemits : Emits A.drops A.result (exit.map (·.within size)) (ctx.enter .branch) n (.seq body)
      code n')
    (hplace : (Code.block size code).resolve A.drops ++ rest <:+ A.code)
    (hfits : A.Fits exit ctx D)
    (hready : A.Ready D ctx ρ ⟨(Code.block size code).resolve A.drops ++ rest, m⟩) :
    A.Ends exit ctx ctx m.esp rest ⟨(Code.block size code).resolve A.drops ++ rest, m⟩ o
      (ρ'.forget ρ) := by
  obtain ⟨start, hblock⟩ := hready.inv.laid.block
  obtain ⟨hinner, -⟩ := Context.inBlock_enter hblock .branch (.inl rfl)
  have hle := (hinner.pastAll body).1.cursor_le
  have hsymbols : ctx.symbols <:+ ((ctx.enter .branch).pastAll body).symbols :=
    ctx.symbols_enter .branch ▸ (Context.adds_pastAll body (ctx.enter .branch)).symbols
  simp only [Code.block, Code.resolve_append, Code.resolve_ofInstrs, List.append_assoc]
    at hplace hready ⊢
  obtain ⟨m₁, hreach, hesp₁, hready₁⟩ := hready.reserve .branch (.inl rfl)
  have hsite : A.Site (exit.map (·.within size)) (ctx.enter .branch) (.seq body) code
      (Code.ofInstrs (release size) ++ rest) (D + size) := by
    refine ⟨⟨n, n', hemits⟩, (List.suffix_append _ _).trans hplace, hfits.structs, ?_, ?_⟩
    · have hroom := hfits.room
      show ((ctx.enter .branch).pastAll body).cursor ≤ _
      omega
    · rintro _ he
      obtain ⟨e, -, rfl⟩ := Option.map_eq_some_iff.1 he
      exact List.cons_ne_nil _ _
  refine .of_reaches hreach ?_
  have hends := hbody hsite hready₁
  cases o with
  | normal =>
    obtain ⟨m₂, hreach₂, hesp₂, hinv⟩ := hends
    obtain ⟨m₃, hreach₃, hesp₃, hebp, hmem⟩ := exists_release A.code rest A.env m₂ size
    refine ⟨m₃, hreach₂.trans hreach₃, ?_, ?_⟩
    · rw [hesp₃, hesp₂, hesp₁, BitVec.sub_add_cancel]
    · exact ((hinv.holding.outward hready.inv.laid hsymbols).of_eq hebp hmem).forget hready.inv
  | broke =>
    obtain ⟨_, c, m₂, he, hreach₂, hesp₂, hold⟩ := hends
    obtain ⟨e, rfl, rfl⟩ := Option.map_eq_some_iff.1 he
    refine ⟨e, c, m₂, rfl, hreach₂, ?_, ?_⟩
    · rw [hesp₂, hesp₁, Exit.within, List.sum_cons, BitVec.ofNat_add, ← BitVec.add_assoc,
        BitVec.sub_add_cancel]
    · exact ((hold.outward hready.inv.laid (by simp)).forget hready.inv).holding
  | continued =>
    obtain ⟨_, c, m₂, he, hreach₂, hesp₂, hold⟩ := hends
    obtain ⟨e, rfl, rfl⟩ := Option.map_eq_some_iff.1 he
    refine ⟨e, c, m₂, rfl, hreach₂, ?_, ?_⟩
    · rw [hesp₂, hesp₁, Exit.within, List.dropLast_cons_of_ne_nil (hfits.blocks e rfl),
        List.sum_cons, BitVec.ofNat_add, ← BitVec.add_assoc, BitVec.sub_add_cancel]
    · exact ((hold.outward hready.inv.laid (by simp)).forget hready.inv).holding
  | returned v =>
    obtain ⟨c, m₂, hreach₂, heax, hold⟩ := hends
    exact ⟨c, m₂, hreach₂, heax,
      ((hold.outward hready.inv.laid (by simp)).forget hready.inv).holding⟩

end Blocks

end Activation

end GLang
