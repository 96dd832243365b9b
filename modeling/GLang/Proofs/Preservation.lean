import GLang.Proofs.Control
import GLang.Proofs.Interpreter

/-!
# Compiled functions do what they mean

The semantics of a statement is simulated by its code: `Exec.simulates`, by induction on the
execution, with one lemma of `GLang.Proofs.Activation` and `GLang.Proofs.Control` for each rule. For
a function this gives `FunctionDecl.lower_preserves`: if it returns a value, its code comes to `ret`
with this value in `eax`, with the stack pointer and the frame base as before, and with the memory
of its caller as before.

The last clause of a `for` loop is compiled in the scope of the body. If the body declares a
variable of a name that the clause mentions, the clause means this variable: `Stmt.uncaptured`
excludes it.
-/

namespace GLang

open Asm Gen

/-! ### Loops whose last clause means what it says -/

namespace Stmt

mutual

/-- Whether no body of a `for` loop declares a name that the last clause of the loop mentions. -/
def uncaptured : Stmt → Bool
  | .branch first others otherwise =>
    armUncaptured first && armsUncaptured others && elseUncaptured otherwise
  | .whileLoop _ body => allUncaptured body
  | .forLoop _ _ increment body =>
    (increment.elim [] Stmt.names).all (! (body.flatMap Stmt.newNames).contains ·) &&
      allUncaptured body
  | _ => true

def allUncaptured : List Stmt → Bool
  | [] => true
  | s :: rest => s.uncaptured && allUncaptured rest

def armUncaptured : Arm → Bool
  | .mk _ body => allUncaptured body

def armsUncaptured : List Arm → Bool
  | [] => true
  | a :: rest => armUncaptured a && armsUncaptured rest

def elseUncaptured : Option (List Stmt) → Bool
  | none => true
  | some body => allUncaptured body

end

theorem uncaptured_of_isOpening {s : Stmt} (h : s.isOpening) : s.uncaptured := by
  cases s with
  | branch | whileLoop | forLoop => simp [isOpening, isSimple] at h
  | _ => rfl

theorem isOpening_of_isSimple {s : Stmt} (h : s.isSimple) : s.isOpening := by
  cases s with
  | declare => rfl
  | _ => exact h

end Stmt

/-- What the induction needs of the parts of a function: clauses of `for` loops are simple, and are
not captured by the body. -/
def Task.Tame : Task → Prop
  | .stmt s => s.wellFormed ∧ s.uncaptured
  | .seq body => Stmt.allWellFormed body ∧ Stmt.allUncaptured body
  | .arms rest otherwise =>
    (Stmt.armsWellFormed rest ∧ Stmt.armsUncaptured rest) ∧
      Stmt.elseWellFormed otherwise ∧ Stmt.elseUncaptured otherwise
  | .loop _ increment body =>
    (increment.all Stmt.isSimple ∧ Stmt.clauseWellFormed increment) ∧
      (∀ x ∈ increment.elim [] Stmt.names, x ∉ body.flatMap Stmt.newNames) ∧
      Stmt.allWellFormed body ∧ Stmt.allUncaptured body
  | .clause s => s.all Stmt.isOpening ∧ Stmt.clauseWellFormed s

/-! ### Statements -/

/-- The code of a task does what the semantics says. -/
def Activation.SimulatesTask (A : Activation) : Task → Env → Outcome → Env → Prop
  | .stmt s => A.Simulates (.stmt s)
  | .seq body => A.Simulates (.seq body)
  | .arms rest otherwise => A.SimulatesArms rest otherwise
  | .loop condition increment body => A.SimulatesLoop condition increment body
  | .clause s => A.Simulates (.clause s)

open Activation in
/-- **The code of a statement does what the semantics says.** -/
theorem Exec.simulates {A : Activation} {t : Task} {ρ ρ' : Env} {o : Outcome}
    (h : Exec A.structs ρ t o ρ') (htame : t.Tame) : A.SimulatesTask t ρ o ρ' := by
  induction h with
  | declare ht hp => exact simulates_declare ht hp
  | declareInit ht hp he => exact simulates_declareInit ht hp he
  | assign he hx => exact simulates_assign he hx
  | step hv hx => exact simulates_step hv hx
  | breakLoop => exact simulates_break
  | continueLoop => exact simulates_continue
  | ret => exact simulates_ret
  | retValue he => exact simulates_retValue he
  | branch _ ih =>
    refine simulates_branch (ih ?_)
    simpa [Task.Tame, Stmt.wellFormed, Stmt.uncaptured, Stmt.armsWellFormed, Stmt.armsUncaptured,
      and_assoc, and_left_comm] using htame
  | whileLoop _ ih =>
    refine simulates_whileLoop (ih ?_)
    simp only [Task.Tame, Stmt.wellFormed, Stmt.uncaptured, Bool.and_eq_true] at htame
    exact ⟨⟨rfl, rfl⟩, fun x hx => absurd hx List.not_mem_nil, htame.1.2, htame.2⟩
  | forLoop _ _ ihinit ih =>
    simp only [Task.Tame, Stmt.wellFormed, Stmt.uncaptured, Bool.and_eq_true, List.all_eq_true,
      Bool.not_eq_true', List.contains_eq_mem, decide_eq_false_iff_not] at htame
    obtain ⟨⟨⟨⟨⟨⟨hopening, hinit⟩, -⟩, hsimple⟩, hincrement⟩, hbody⟩, hnames, hcaptured⟩ := htame
    exact simulates_forLoop (ihinit ⟨hopening, hinit⟩)
      (ih ⟨⟨hsimple, hincrement⟩, hnames, hbody, hcaptured⟩)
  | seqNil => exact simulates_seqNil
  | seqNext _ _ ihs ih =>
    simp only [Task.Tame, Stmt.allWellFormed, Stmt.allUncaptured, Bool.and_eq_true] at htame
    exact simulates_seqNext (ihs ⟨htame.1.1, htame.2.1⟩) (ih ⟨htame.1.2, htame.2.2⟩)
  | seqStop _ ho ihs =>
    simp only [Task.Tame, Stmt.allWellFormed, Stmt.allUncaptured, Bool.and_eq_true] at htame
    exact simulates_seqStop (ihs ⟨htame.1.1, htame.2.1⟩) ho
  | armTaken he hv _ ih =>
    simp only [Task.Tame, Stmt.armsWellFormed, Stmt.armWellFormed, Stmt.armsUncaptured,
      Stmt.armUncaptured, Bool.and_eq_true] at htame
    exact simulatesArms_taken he hv (ih ⟨htame.1.1.1.2, htame.1.2.1⟩)
  | armPassed he hv _ ih =>
    simp only [Task.Tame, Stmt.armsWellFormed, Stmt.armsUncaptured, Bool.and_eq_true] at htame
    exact simulatesArms_passed he hv (ih ⟨⟨htame.1.1.2, htame.1.2.2⟩, htame.2⟩)
  | noElse => exact simulatesArms_noElse
  | otherwise _ ih => exact simulatesArms_otherwise (ih htame.2)
  | loopDone ht => exact simulatesLoop_done ht
  | loopBroken ht _ ih => exact simulatesLoop_broken ht (ih htame.2.2)
  | loopReturned ht _ ih => exact simulatesLoop_returned ht (ih htame.2.2)
  | @loopNext _ _ _ _ _ _ increment body _ _ ht _ ho _ _ ihbody ihstep ihnext =>
    obtain ⟨⟨hsimple, hincrement⟩, hnames, hbody⟩ := htame
    have hopening : increment.all Stmt.isOpening := by
      cases increment with
      | none => rfl
      | some s => exact Stmt.isOpening_of_isSimple hsimple
    -- The clause has been compiled after the body, but it runs in the scope of the loop.
    have hclause {exit : Option Exit} {ctx : Context} {n n' : LabelCounters} {code : Code}
        (hemits : Emits A.drops A.result exit (ctx.pastAll body) n (.clause increment) code n') :
        Emits A.drops A.result exit ctx n (.clause increment) code n' :=
      hemits.clause_outward hsimple (Context.adds_pastAll body ctx) hnames
    exact simulatesLoop_next ht (ihbody hbody) ho (ihstep ⟨hopening, hincrement⟩)
      (ihnext ⟨⟨hsimple, hincrement⟩, hnames, hbody⟩) hsimple hclause
  | clauseNone => exact simulates_clauseNone
  | clauseSome _ ih =>
    exact simulates_clauseSome (ih ⟨htame.2, Stmt.uncaptured_of_isOpening htame.1⟩)

/-! ### Parameters -/

theorem exists_of_mem_slotSymbols {slots : List (String × Ty)} {c : Int} {s : Symbol}
    (h : s ∈ slotSymbols c slots) :
    ∃ (i : Nat) (x : String) (t : Ty), slots[i]? = some (x, t) ∧
      s = ⟨x, t, c - parameterSlot * i⟩ := by
  obtain ⟨i, hi⟩ := List.getElem?_of_mem h
  have hlen : (slotSymbols c slots).length = slots.length := by
    simpa using congrArg List.length (map_name_slotSymbols slots c)
  obtain ⟨hlt, -⟩ := List.getElem?_eq_some_iff.1 hi
  have hslot : slots[i]? = some (slots[i].1, slots[i].2) := List.getElem?_eq_getElem (hlen ▸ hlt)
  exact ⟨i, _, _, hslot, Option.some.inj (hi.symm.trans (getElem?_slotSymbols hslot))⟩

theorem place_parameter (x : String) (t : Ty) (i : Nat) (esp : Word) :
    (⟨x, t, parameterStart - parameterSlot * i⟩ : Symbol).place (esp - 4) =
      esp + .ofNat 32 (4 + 4 * i) := by
  have hoffset : parameterStart - parameterSlot * i = -((4 + (4 + 4 * i) : Nat) : Int) := by
    simp only [parameterStart, parameterSlot]
    omega
  rw [Symbol.place, hoffset, sub_ofInt_neg, BitVec.ofInt_natCast, BitVec.ofNat_add,
    ← BitVec.add_assoc]
  congr 1
  exact BitVec.sub_add_cancel esp 4

theorem holds_ofArgs {base : Word} {mem : Memory} {params : List (String × Ty)} :
    ∀ {args : List Word} {c : Int}, params.length = args.length →
      (∀ (i : Nat) v, args[i]? = some v →
        mem.load .dword (base - .ofInt 32 (c - parameterSlot * i)) = v) →
      List.Forall₂ (Holds base mem) (slotSymbols c params) (Env.ofArgs params args).reverse := by
  induction params with
  | nil =>
    intro args c hlen _
    obtain rfl := List.length_eq_zero_iff.1 hlen.symm
    exact .nil
  | cons q params ih =>
    intro args c hlen hargs
    cases args with
    | nil => cases hlen
    | cons v args =>
      have hrest := ih (c := c - parameterSlot) (Nat.succ.inj hlen) fun i w hi => by
        rw [← hargs (i + 1) w hi]
        congr 3
        simp only [parameterSlot]
        omega
      have hhead : mem.load .dword (base - .ofInt 32 c) = v := by
        simpa using hargs 0 v rfl
      simp only [Env.ofArgs, List.reverse_reverse] at hrest ⊢
      refine .cons ⟨rfl, rfl, fun w hw => ?_⟩ hrest
      cases hw
      rw [← hhead]
      exact mem.load_eq_truncate _ _

theorem Env.exists_value_of_mem_ofArgs {params : List (String × Ty)} {args : List Word} {c : Cell}
    (h : c ∈ Env.ofArgs params args) : ∃ v, c.value = some v := by
  obtain ⟨q, -, rfl⟩ := List.mem_map.1 (List.mem_reverse.1 h)
  exact ⟨_, rfl⟩

theorem exists_of_forall₂ {α β : Type} {R : α → β → Prop} {as : List α} {bs : List β}
    (h : List.Forall₂ R as bs) {i : Nat} {a : α} (hi : as[i]? = some a) :
    ∃ b, bs[i]? = some b ∧ R a b := by
  obtain ⟨hlt, rfl⟩ := List.getElem?_eq_some_iff.1 hi
  exact ⟨_, List.getElem?_eq_getElem (h.length_eq ▸ hlt), h.get hlt _⟩

/-! ### Functions -/

/-- What follows the body of a function. -/
def FunctionDecl.epilogue : Code :=
  Code.ofInstrs [.move .esp .ebp, .pop .ebp, .ret]

theorem FunctionDecl.frameCode_eq (name : String) (frame : Nat) (body : Code) :
    frameCode name frame body = .label (.named name) :: .instr (.pushReg .ebp) ::
      .instr (.move .ebp .esp) :: (Code.ofInstrs (reserve frame) ++
        (body ++ .label .returnPoint :: epilogue)) := by
  simp [frameCode, epilogue, Code.ofInstrs]

section Frames

variable {code rest : Code} {env : Environment} {m : Machine} {frame : Nat}

theorem Asm.Code.Safe.exists_frame {l : Label}
    (h : code.Safe env ⟨.label l :: .instr (.pushReg .ebp) :: .instr (.move .ebp .esp) ::
      (Code.ofInstrs (reserve frame) ++ rest), m⟩) :
    4 + frame ≤ m.esp.toNat ∧ ∃ m',
      code.Steps env ⟨.label l :: .instr (.pushReg .ebp) :: .instr (.move .ebp .esp) ::
        (Code.ofInstrs (reserve frame) ++ rest), m⟩ ⟨rest, m'⟩ ∧
      m'.esp = m.esp - 4 - .ofNat 32 frame ∧ m'.ebp = m.esp - 4 ∧
      m'.memory = m.memory.store .dword (m.esp - 4) m.ebp := by
  have hlabel : code.Steps env _ ⟨.instr (.pushReg .ebp) :: .instr (.move .ebp .esp) ::
    (Code.ofInstrs (reserve frame) ++ rest), m⟩ := Code.Steps.label l
  have hroom := (h.of_steps hlabel).room (d := 4) rfl
  have hsave := (hlabel.tail (Code.step_of_exec rfl)).tail (Code.step_of_exec rfl)
  obtain ⟨hle, m', hreserve, hesp, hebp, hmem⟩ := (h.of_steps hsave).exists_reserve
  refine ⟨?_, m', hsave.trans hreserve, hesp, hebp, hmem⟩
  have hle : frame ≤ (m.esp - 4).toNat := hle
  bv_omega

theorem FunctionDecl.steps_epilogue (code : Code) (env : Environment) (m : Machine) :
    ∃ m', code.Steps env ⟨epilogue, m⟩ ⟨[.instr .ret], m'⟩ ∧ m'.eax = m.eax ∧
      m'.esp = m.ebp + 4 ∧ m'.ebp = m.memory.load .dword m.ebp ∧ m'.memory = m.memory :=
  ⟨_, .head (Code.step_of_exec rfl) (.single (Code.step_of_exec rfl)), rfl, rfl, rfl, rfl⟩

end Frames

namespace Frame

/-- The frame of a function with these parameters, when it has been called and has saved the frame
base of its caller. -/
def ofCall (params : List (String × Ty)) (m : Machine) (hroom : 4 ≤ m.esp.toNat)
    (hfits : m.esp.toNat + 4 + 4 * params.length ≤ 2 ^ 32) : Frame where
  base := m.esp - 4
  memory := m.memory.store .dword (m.esp - 4) m.ebp
  params := slotSymbols parameterStart params
  above := by
    intro s hs
    obtain ⟨i, x, t, hi, rfl⟩ := exists_of_mem_slotSymbols hs
    obtain ⟨hlt, -⟩ := List.getElem?_eq_some_iff.1 hi
    have hbytes := t.width.bytes_le
    have hbase : (m.esp - 4).toNat = m.esp.toNat - 4 := by bv_omega
    simp only [parameterStart, parameterSlot, Symbol.bytes, hbase]
    omega

variable {params : List (String × Ty)} {args : List Word} {m m' : Machine} {ctx : Context}
  {final : Env} (hroom : 4 ≤ m.esp.toNat)

include hroom

theorem store_ebp {a : Word} (ha : m.esp.toNat ≤ a.toNat) :
    m.memory.store .dword (m.esp - 4) m.ebp a = m.memory a := by
  refine Memory.store_of_outside ?_ (.inr ?_) <;> simp only [Width.bytes] <;> bv_omega

theorem holds_args (hfits : m.esp.toNat + 4 + 4 * params.length ≤ 2 ^ 32)
    (hlen : params.length = args.length)
    (hargs : ∀ (i : Nat) v, args[i]? = some v →
      m.memory.load .dword (m.esp + .ofNat 32 (4 + 4 * i)) = v) :
    List.Forall₂ (Holds (m.esp - 4) (m.memory.store .dword (m.esp - 4) m.ebp))
      (slotSymbols parameterStart params) (Env.ofArgs params args).reverse := by
  refine holds_ofArgs hlen fun i v hi => ?_
  obtain ⟨hlt, -⟩ := List.getElem?_eq_some_iff.1 hi
  have hplace : m.esp - 4 - .ofInt 32 (parameterStart - parameterSlot * i) =
      m.esp + .ofNat 32 (4 + 4 * i) := place_parameter "" .int32 i m.esp
  have hnat : (m.esp + .ofNat 32 (4 + 4 * i)).toNat = m.esp.toNat + (4 + 4 * i) := by bv_omega
  rw [hplace, ← hargs i v hi]
  refine Memory.load_congr_of_le ?_ fun b hb _ => store_ebp hroom ?_
  · simp only [Width.bytes]
    omega
  · omega

theorem inv_ofCall {signature : FunctionSignature} {d : Declarations}
    (hfits : m.esp.toNat + 4 + 4 * signature.params.length ≤ 2 ^ 32)
    (hentry : signature.entry d = .ok ctx) (haggregate : signature.aggregate? = none)
    (hprimitive : ∀ q ∈ signature.params, q.2.isPrimitive)
    (hlen : signature.params.length = args.length)
    (hargs : ∀ (i : Nat) v, args[i]? = some v →
      m.memory.load .dword (m.esp + .ofNat 32 (4 + 4 * i)) = v)
    (hebp : m'.ebp = m.esp - 4) (hmem : m'.memory = m.memory.store .dword (m.esp - 4) m.ebp) :
    (ofCall signature.params m hroom hfits).Inv ctx (.ofArgs signature.params args) m' := by
  obtain ⟨hlaid, hsymbols, -⟩ := signature.laid_entry hentry haggregate hprimitive
  refine ⟨hlaid, hebp, ?_, fun a _ _ => congrFun hmem a⟩
  rw [hsymbols, hmem, ← List.forall₂_reverse_iff, List.reverse_reverse]
  exact holds_args hroom hfits hlen hargs

variable (hfits : m.esp.toNat + 4 + 4 * params.length ≤ 2 ^ 32)

theorem load_base (h : (ofCall params m hroom hfits).Inv ctx final m') :
    m'.memory.load .dword (m.esp - 4) = m.ebp := by
  have hstored : (m.memory.store .dword (m.esp - 4) m.ebp).load .dword (m.esp - 4) = m.ebp := by
    rw [Memory.load_store, Width.truncate_dword]
  rw [← hstored]
  refine Memory.load_congr_of_le ?_ fun b hb hlt => h.kept b hb fun s hs hcovers => ?_
  · simp only [Width.bytes]
    bv_omega
  · -- Parameters lie above the return address.
    obtain ⟨i, x, t, hi, rfl⟩ := exists_of_mem_slotSymbols hs
    obtain ⟨hi, -⟩ := List.getElem?_eq_some_iff.1 hi
    have hbytes := t.width.bytes_le
    have hcovers : (b - (m.esp + .ofNat 32 (4 + 4 * i))).toNat < t.width.bytes :=
      place_parameter x t i m.esp ▸ hcovers
    simp only [Width.bytes] at hlt
    bv_omega

/-- **The memory of the caller is unchanged**, the slots of parameters with a new value apart. -/
theorem memory_eq (hsymbols : ctx.symbols = (slotSymbols parameterStart params).reverse)
    (hlen : params.length = args.length)
    (hargs : ∀ (i : Nat) v, args[i]? = some v →
      m.memory.load .dword (m.esp + .ofNat 32 (4 + 4 * i)) = v)
    (h : (ofCall params m hroom hfits).Inv ctx final m') {a : Word} (ha : m.esp.toNat ≤ a.toNat)
    (hkept : ∀ i : Nat, (a - (m.esp + .ofNat 32 (4 + 4 * i))).toNat < 4 →
      final.values[i]? = (Env.ofArgs params args).values[i]?) : m'.memory a = m.memory a := by
  rw [← store_ebp hroom ha]
  by_cases hcovers : ∃ s ∈ slotSymbols parameterStart params, s.Covers (m.esp - 4) a
  · obtain ⟨s, hs, hcovers⟩ := hcovers
    obtain ⟨i, x, t, hi, rfl⟩ := exists_of_mem_slotSymbols hs
    have hbytes := t.width.bytes_le
    have hplace := place_parameter x t i m.esp
    have hslot : (a - (m.esp + .ofNat 32 (4 + 4 * i))).toNat < t.width.bytes := hplace ▸ hcovers
    have hsymbol := getElem?_slotSymbols (c := parameterStart) hi
    have hvars := h.vars
    rw [hsymbols, ← List.forall₂_reverse_iff, List.reverse_reverse] at hvars
    obtain ⟨c, hc, hholds⟩ := exists_of_forall₂ hvars hsymbol
    obtain ⟨c₀, hc₀, hholds₀⟩ := exists_of_forall₂ (holds_args hroom hfits hlen hargs) hsymbol
    have hvalue : c.value = c₀.value := by
      have hkept := hkept i (by omega)
      rw [Env.values, Env.values, List.getElem?_map, List.getElem?_map, hc, hc₀] at hkept
      exact Option.some.inj hkept
    obtain ⟨v, hv⟩ := Env.exists_value_of_mem_ofArgs
      (List.mem_reverse.1 (List.mem_of_getElem? hc₀))
    have hload := hholds.value v (hvalue.trans hv)
    have hload₀ := hholds₀.value v hv
    rw [← hholds.width] at hload
    rw [← hholds₀.width] at hload₀
    exact Memory.eq_of_load_eq (hload.trans hload₀.symm) hcovers
  · refine h.kept a ?_ fun s hs hs' => hcovers ⟨s, hs, hs'⟩
    show (m.esp - 4).toNat ≤ a.toNat
    bv_omega

end Frame

/-- Whether parameters and result are primitive. -/
def FunctionSignature.isScalar (f : FunctionSignature) : Bool :=
  f.params.all (·.2.isPrimitive) && f.result.all Ty.isPrimitive

theorem FunctionDecl.readParams_of_signature {structs : StructTable} {external : Bool}
    {decl : FunctionDecl} {f : FunctionSignature} (h : decl.signature structs external = .ok f) :
    readParams structs decl.params = .ok f.params := by
  obtain ⟨params, hparams, h⟩ := except_bind_eq_ok.1 h
  cases hm : misplaced? params with
  | some q =>
    simp only [hm] at h
    cases h
  | none =>
    simp only [hm] at h
    cases hr : decl.result with
    | none =>
      simp only [hr] at h
      cases h
      exact hparams
    | some type =>
      simp only [hr] at h
      obtain ⟨t, -, h⟩ := except_bind_eq_ok.1 h
      cases h
      exact hparams

theorem Activation.Ends.exists_result {A : Activation} {ctx after : Context} {esp : Word}
    {rest : Code} {s : State} {o : Outcome} {ρ : Env} {result : Option Word}
    (h : A.Ends none ctx after esp (.label .returnPoint :: rest) s o ρ)
    (hresult : o.result? = some result) (hplace : .label .returnPoint :: rest <:+ A.code)
    (hl : ctx.Laid A.params) (hs : ctx.symbols <:+ after.symbols) :
    ∃ m, A.Reaches s ⟨rest, m⟩ ∧ (∀ v, result = some v → m.eax = v) ∧ A.Holding ctx ρ m := by
  cases o with
  | normal =>
    cases hresult
    obtain ⟨m, hreach, -, hinv⟩ := h
    exact ⟨m, hreach.label, nofun, hinv.holding.outward hl hs⟩
  | broke => cases hresult
  | continued => cases hresult
  | returned v =>
    cases hresult
    obtain ⟨c, m, hreach, heax, hold⟩ := h
    exact ⟨m, hreach.jump (target_eq hplace), heax, hold⟩

/-- **Compiling preserves meaning.** Take a function of a source text that compiles, with primitive
parameters and results, and arguments above the return address. If the semantics returns a result,
the code of the function comes to `ret` with the result in `eax`, and with the stack pointer and the
frame base as they were. So is the memory from the stack pointer on, the slots of parameters that
have got another value apart. -/
theorem FunctionDecl.lower_preserves {source : String} {p : Program} {decl : FunctionDecl}
    {signature : FunctionSignature} {g g' : Generator} {code : Code} {env : Environment}
    {m : Machine} {args : List Word} {result : Option Word} {final : Env}
    (hp : Program.ofSource source = .ok p) (hd : .function decl ∈ p.items)
    (hsignature : decl.signature g.context.structs false = .ok signature)
    (hg : g.context.functions.get decl.name = .ok signature) (hscalar : signature.isScalar)
    (hfor : Stmt.allUncaptured decl.body) (h : Returns decl.lower g code g')
    (hruns : decl.Runs g.context.structs args result final)
    (hargs : ∀ (i : Nat) v, args[i]? = some v →
      m.memory.load .dword (m.esp + .ofNat 32 (4 + 4 * i)) = v)
    (hfits : m.esp.toNat + 4 + 4 * args.length ≤ 2 ^ 32) (hsafe : code.Safe env ⟨code, m⟩) :
    ∃ m', code.Steps env ⟨code, m⟩ ⟨[.instr .ret], m'⟩ ∧ (∀ v, result = some v → m'.eax = v) ∧
      m'.esp = m.esp ∧ m'.ebp = m.ebp ∧
      ∀ a : Word, m.esp.toNat ≤ a.toNat →
        (∀ i : Nat, (a - (m.esp + .ofNat 32 (4 + 4 * i))).toNat < 4 →
          final.values[i]? = (Env.ofArgs signature.params args).values[i]?) →
        m'.memory a = m.memory a := by
  have hwellFormed := wellFormed_of_source hp hd
  obtain ⟨_, ctx, raw, σ, hsignature', -, hentry, rfl, hemits, -, -⟩ :=
    emits_of_returns hwellFormed h
  cases hg.symm.trans hsignature'
  obtain ⟨params, o, ρ, hparams, hlen, hexec, hresult, rfl⟩ := hruns
  cases (readParams_of_signature hsignature).symm.trans hparams
  obtain ⟨hprimitive, hprimitive'⟩ :
      (∀ q ∈ signature.params, q.2.isPrimitive) ∧
        ∀ t, signature.result = some t → t.isPrimitive := by
    simpa [FunctionSignature.isScalar, Option.all_eq_true] using hscalar
  have haggregate : signature.aggregate? = none := by
    simpa [FunctionSignature.aggregate?, Option.filter_eq_none_iff] using hprimitive'
  obtain ⟨hlaid, hsymbols, hblock⟩ := signature.laid_entry hentry haggregate hprimitive
  have hnodup := hemits.nodup_labels_frameCode decl.name (ctx.pastAll decl.body).frameSize
  rw [← hlen] at hfits
  rw [frameCode_eq] at hsafe hnodup ⊢
  obtain ⟨hroom, m₁, hsteps₁, hesp₁, hebp₁, hmem₁⟩ := hsafe.exists_frame
  have hroom₄ : 4 ≤ m.esp.toNat := by omega
  let A : Activation :=
    { toFrame := .ofCall signature.params m hroom₄ hfits
      code := _
      env := env
      drops := σ
      result := signature.result
      structs := g.context.structs
      labels_nodup := hnodup
      result_isPrimitive := hprimitive' }
  have hplace : raw.resolve σ ++ .label .returnPoint :: epilogue <:+ A.code :=
    (List.suffix_append _ _).trans ((List.suffix_cons _ _).trans
      ((List.suffix_cons _ _).trans (List.suffix_cons _ _)))
  have hsite : A.Site none ctx (.seq decl.body) raw (.label .returnPoint :: epilogue)
      (ctx.pastAll decl.body).frameSize := by
    refine ⟨⟨_, _, hemits⟩, hplace, ?_, ?_, nofun⟩
    · rw [(FunctionSignature.scopes_entry hentry).2]
      rfl
    · have hcursor := (hblock.pastAll decl.body).1.cursor_le
      rw [Int.zero_add] at hcursor
      exact hcursor
  have hinv₁ : A.Inv ctx (.ofArgs signature.params args) m₁ :=
    Frame.inv_ofCall hroom₄ hfits hentry haggregate hprimitive hlen hargs hebp₁ hmem₁
  have hready : A.Ready (ctx.pastAll decl.body).frameSize ctx (.ofArgs signature.params args)
      ⟨raw.resolve σ ++ .label .returnPoint :: epilogue, m₁⟩ := by
    refine ⟨hinv₁, ?_, hsafe.of_steps hsteps₁⟩
    show m₁.esp.toNat + _ = (m.esp - 4).toNat
    rw [hesp₁]
    bv_omega
  have hends := hexec.simulates (A := A) ⟨(Bool.and_eq_true_iff.1 hwellFormed).2, hfor⟩ hsite hready
  obtain ⟨m₂, hreach₂, heax, hold⟩ := hends.exists_result hresult
    ((List.suffix_append _ _).trans hplace) hlaid (Context.adds_pastAll decl.body ctx).symbols
  have hinv₂ := hold.forget hinv₁
  obtain ⟨m₃, hsteps₃, heax₃, hesp₃, hebp₃, hmem₃⟩ := steps_epilogue A.code env m₂
  have hbase : m₂.ebp = m.esp - 4 := hinv₂.base
  refine ⟨m₃, (hsteps₁.trans hreach₂).trans hsteps₃, fun v hv => heax₃.trans (heax v hv), ?_, ?_,
    fun a ha hkept => ?_⟩
  · rw [hesp₃, hbase, BitVec.sub_add_cancel]
  · rw [hebp₃, hbase]
    exact Frame.load_base hroom₄ hfits hinv₂
  · rw [hmem₃]
    exact Frame.memory_eq hroom₄ hfits hsymbols hlen hargs hinv₂ ha hkept

/-- A `for` loop with a `continue` and a narrow variable, and a `while` loop that is left from a
block with variables of its own. The arguments are 3 and 507, of which 251 is kept, and the first
parameter is assigned. -/
theorem FunctionDecl.lower_preserves_of_loops :
    ∃ p decl signature, ∃ (code : Code) (g' : Generator) (env : Environment) (m : Machine)
      (final : Env),
      Program.ofSource "fn f(n: i32, k: u8) -> i32 { var s: i32 = 0;
        for (var i: i32 = 0; i < n; i++) { if (i == 1) { continue; } var t: i8 = k + i;
          while (t > 250) { var s: i32 = t; if (s == 253) { var u: i32 = s; t = u; break; } t++; }
          s = s + t; }
        n = s; return n; }" = .ok p ∧ .function decl ∈ p.items ∧
      decl.signature (Generator.start {} p).1.context.structs false = .ok signature ∧
      (Generator.start {} p).1.context.functions.get decl.name = .ok signature ∧
      signature.isScalar ∧ Stmt.allUncaptured decl.body ∧
      Returns decl.lower (Generator.start {} p).1 code g' ∧
      decl.Runs (Generator.start {} p).1.context.structs [3, 507] (some 506) final ∧
      m.esp = 4096 ∧ m.memory.load .dword 4100 = 3 ∧ m.memory.load .dword 4104 = 507 ∧
      code.Safe env ⟨code, m⟩ ∧
      ∃ m', code.Steps env ⟨code, m⟩ ⟨[.instr .ret], m'⟩ ∧ m'.eax = 506 ∧ m'.esp = m.esp ∧
        m'.ebp = m.ebp ∧ ∀ a : Word, 4104 ≤ a.toNat → m'.memory a = m.memory a := by
  let env : Environment := ⟨fun _ => 0, fun _ _ => none⟩
  let mem : Memory := Memory.store (Memory.store (fun _ => 0) .dword 4100 3) .dword 4104 507
  let m : Machine := ⟨0, 0, 0, 4096, 8192, ⟨false, false, false, false⟩, mem⟩
  obtain ⟨p, decl, code, g', hp, hd, h, hcheck⟩ := exists_of_someFunction
    "fn f(n: i32, k: u8) -> i32 { var s: i32 = 0;
        for (var i: i32 = 0; i < n; i++) { if (i == 1) { continue; } var t: i8 = k + i;
          while (t > 250) { var s: i32 = t; if (s == 253) { var u: i32 = s; t = u; break; } t++; }
          s = s + t; }
        n = s; return n; }"
    (fun g decl code =>
      let structs := g.context.structs
      let signature : FunctionSignature :=
        ⟨"f", [("n", .int32), ("k", .primitive 1 false)], some .int32, false⟩
      decide ((decl.signature structs false).toOption = some signature) &&
        decide ((g.context.functions.get decl.name).toOption = some signature) &&
        Stmt.allUncaptured decl.body &&
        decide ((decl.run structs 100 [3, 507]).map (fun r => (r.1, r.2.values)) =
          some (some 506, [some 506, some 251])) &&
        code.runsSafely env 1000 ⟨code, m⟩)
    (by decide +kernel)
  simp only [Bool.and_eq_true, decide_eq_true_eq, except_toOption_eq_some] at hcheck
  obtain ⟨⟨⟨⟨hsignature, hg⟩, hfor⟩, hrun⟩, hsafe⟩ := hcheck
  obtain ⟨⟨result, final⟩, hrun, hresult⟩ := Option.map_eq_some_iff.1 hrun
  obtain ⟨rfl, hfinal⟩ := Prod.mk.inj hresult
  have hruns := runs_of_run hrun
  have hsafe := Code.safe_of_runsSafely hsafe
  have hfirst : m.memory.load .dword 4100 = 3 := by decide +kernel
  have hsecond : m.memory.load .dword 4104 = 507 := by decide +kernel
  have hargs : ∀ (i : Nat) v, [3, 507][i]? = some v →
      m.memory.load .dword (m.esp + .ofNat 32 (4 + 4 * i)) = v := by
    intro i v hi
    match i with
    | 0 => exact hfirst.trans (Option.some.inj hi)
    | 1 => exact hsecond.trans (Option.some.inj hi)
    | i + 2 => simp at hi
  obtain ⟨m', hsteps, heax, hesp, hebp, hmem⟩ :=
    lower_preserves hp hd hsignature hg rfl hfor h hruns hargs (by decide) hsafe
  refine ⟨p, decl, _, code, g', env, m, final, hp, hd, hsignature, hg, rfl, hfor, h, hruns, rfl,
    hfirst, hsecond, hsafe, m', hsteps, heax _ rfl, hesp, hebp,
    fun a ha => hmem a ?_ fun i hi => ?_⟩
  · exact Nat.le_trans (by decide) ha
  · rw [hfinal]
    match i with
    | 0 =>
      -- The slot of the first parameter ends at 4104.
      have hi : (a - 4100).toNat < 4 := hi
      bv_omega
    | 1 => rfl
    | i + 2 => rfl

end GLang
