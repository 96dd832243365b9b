import GLang.Proofs.Activation

/-!
# Branches and loops at work

The code of `if` statements and of loops does what the semantics says, if the code of the statements
in them does.

* `Activation.ArmsAt`: the arms of an `if` statement that are left, in the code of a function. A
  condition that fails jumps to the next arm; a block that is left by its end jumps behind the last
  one.
* `Activation.LoopAt`: a loop in the code of a function. The last clause of a `for` loop is compiled
  in the scope of the body, but it means the same in the scope of the loop if the body declares none
  of its names: `EmitsWith.clause_outward`.
-/

namespace GLang

open Asm

/-! ### The last clause of a `for` loop -/

theorem Context.Adds.alikeOn {ctx ctx' : Context} {names xs : List String} (h : ctx.Adds names ctx')
    (hxs : ∀ x ∈ xs, x ∉ names) : ctx'.AlikeOn xs ctx where
  declarations := h.declarations
  find x hx := ScopeStack.find?_eq_of_lookup (h.lookup x (hxs x hx))

theorem EmitsWith.clause_outward {total : List Nat → Nat} {σ : Nat → Nat} {result : Option Ty}
    {exit : Option Exit} {ctx ctx' : Context} {n n' : LabelCounters} {clause : Option Stmt}
    {code : Code}
    {names : List String} (hsimple : clause.all Stmt.isSimple)
    (hadds : ctx.Adds names ctx') (hnames : ∀ x ∈ clause.elim [] Stmt.names, x ∉ names)
    (h : EmitsWith total σ result exit ctx' n (.clause clause) code n') :
    EmitsWith total σ result exit ctx n (.clause clause) code n' := by
  have halike := hadds.alikeOn hnames
  cases h with
  | clauseNone => exact .clauseNone
  | clauseSome h =>
    refine .clauseSome ?_
    cases h with
    | assign hv hx =>
      rw [Expr.lower_congr (halike.mono (List.subset_cons_self _ _))] at hv
      rw [halike.lookup List.mem_cons_self] at hx
      exact .assign hv hx
    | store hx ht hv =>
      rw [Expr.lower_congr (halike.mono (List.subset_cons_self _ _))] at hv
      rw [halike.lookup List.mem_cons_self] at hx
      exact .store hx ht hv
    | storeAt ht ha hv =>
      rw [Expr.readType_congr (halike.left rfl).sameOn] at ht
      rw [Expr.lower_congr (halike.left rfl)] at ha
      rw [Expr.lower_congr (halike.right rfl)] at hv
      exact .storeAt ht ha hv
    | step hx hp =>
      rw [halike.lookup List.mem_cons_self] at hx
      exact .step hx hp
    | run hc =>
      rw [Expr.lowerCall_congr halike] at hc
      exact .run hc
    | _ => simp [Stmt.isSimple] at hsimple

theorem Context.pastClause_of_isSimple (ctx : Context) {clause : Option Stmt}
    (h : clause.all Stmt.isSimple) : ctx.pastClause clause = ctx := by
  cases clause with
  | none => rfl
  | some s =>
    cases s with
    | declare => simp [Stmt.isSimple] at h
    | _ => rfl

/-! ### The code of a loop -/

/-- The parts of the code of a loop, from its head on. -/
structure LoopCode where
  head : Label
  done : Label
  labels : LoopLabels
  size : Nat
  test : List Instr
  body : Code
  /-- What follows the body. -/
  turn : Code

/-- How a loop is left. -/
def LoopCode.exit (L : LoopCode) : Exit :=
  ⟨L.labels, [L.size]⟩

/-- The code of a loop after the label at its head. -/
def LoopCode.round (L : LoopCode) (A : Activation) : Code :=
  Code.ofInstrs L.test ++ (L.body.resolve A.drops ++ L.turn)

namespace Activation

variable {A : Activation} {exit : Option Exit} {ctx after : Context} {esp : Word}
  {rest rest' : Code} {s : State} {o : Outcome} {ρ ρ' ρ₁ ρ₂ : Env} {D : Nat} {m : Machine}

theorem Ends.on (h : A.Ends exit ctx after esp rest' s o ρ)
    (hon : ∀ m, A.Reaches ⟨rest', m⟩ ⟨rest, m⟩) : A.Ends exit ctx after esp rest s o ρ := by
  cases o with
  | normal =>
    obtain ⟨m, hm, h⟩ := h
    exact ⟨m, hm.trans (hon m), h⟩
  | broke | continued | returned => exact h

theorem target_eq {l : Label} (h : .label l :: rest <:+ A.code) :
    A.code.target l = some (.label l :: rest) :=
  Code.target_of_suffix A.labels_nodup h

/-! ### Branches -/

/-- The arms of the `k`-th `if` statement that are left, from the line after a label on; `rest`
follows the statement. -/
inductive ArmsAt (A : Activation) (exit : Option Exit) (ctx : Context) (k : Nat) (rest : Code) :
    List Arm → Option (List Stmt) → Code → Prop where
  | done : ArmsAt A exit ctx k rest [] none rest
  | otherwise {body size code n n'} (hsize : ((ctx.enter .branch).pastAll body).frameSize = size)
      (hbody : Emits A.drops A.result (exit.map (·.within size)) (ctx.enter .branch) n (.seq body)
        code n')
      (hplace : (Code.block size code).resolve A.drops ++ .label (.ifEnd k) :: rest <:+ A.code) :
      ArmsAt A exit ctx k rest [] (some body)
        ((Code.block size code).resolve A.drops ++ .label (.ifEnd k) :: rest)
  | arm {condition body arms otherwise test size code next c more n n'}
      (htest : condition.lower ctx = .ok test)
      (hsize : ((ctx.enter .branch).pastAll body).frameSize = size)
      (hbody : Emits A.drops A.result (exit.map (·.within size)) (ctx.enter .branch) n (.seq body)
        code n')
      (hplace : (Code.block size code).resolve A.drops ++ .instr (.jump (.ifEnd k)) :: more <:+
        A.code)
      (hnext : .label next :: c <:+ A.code) (hrest : ArmsAt A exit ctx k rest arms otherwise c) :
      ArmsAt A exit ctx k rest (.mk condition body :: arms) otherwise
        (Code.ofInstrs (test ++ [.pop .eax, .arith .test .eax (.imm 1), .jumpZero next]) ++
          ((Code.block size code).resolve A.drops ++ .instr (.jump (.ifEnd k)) :: more))

/-- The code of the arms that are left does what the semantics says. -/
def SimulatesArms (A : Activation) (arms : List Arm) (otherwise : Option (List Stmt)) (ρ : Env)
    (o : Outcome) (ρ' : Env) : Prop :=
  ∀ ⦃exit ctx k rest c D m⦄, A.ArmsAt exit ctx k rest arms otherwise c →
    .label (.ifEnd k) :: rest <:+ A.code → A.Fits exit ctx D → A.Ready D ctx ρ ⟨c, m⟩ →
    A.Ends exit ctx ctx m.esp rest ⟨c, m⟩ o ρ'

section Branches

variable {condition : Expr} {body : List Stmt} {arms : List Arm} {otherwise : Option (List Stmt)}
  {v : Word} {k : Nat}

theorem simulatesArms_taken (he : condition.eval ρ = some (v, ρ₁)) (hv : v &&& 1 ≠ 0)
    (hbody : A.Simulates (.seq body) ρ₁ o ρ₂) :
    A.SimulatesArms (.mk condition body :: arms) otherwise ρ o (ρ₂.forget ρ₁) := by
  intro exit ctx k rest c D m harms hend hfits hready
  cases harms with
  | arm htest hsize hemits hplace hnext hrest =>
    obtain ⟨m₁, hreach, hesp, hinv⟩ :=
      hready.jumpOn hfits.room htest he (.inl rfl) (target_eq hnext)
    have hzero : ¬ (Arith.compute .test v (.ofInt 32 1)).2.zero = true := by
      simpa [Arith.compute, Flags.ofLogic] using hv
    rw [if_neg hzero] at hreach
    have hends := ends_block hbody hsize hemits hplace hfits (hready.next hreach hesp hinv)
    rw [hesp] at hends
    exact (hends.on fun m => Reaches.jump .refl (target_eq hend)).of_reaches hreach

theorem simulatesArms_passed (he : condition.eval ρ = some (v, ρ₁)) (hv : v &&& 1 = 0)
    (hrest : A.SimulatesArms arms otherwise ρ₁ o ρ₂) :
    A.SimulatesArms (.mk condition body :: arms) otherwise ρ o ρ₂ := by
  intro exit ctx k rest c D m harms hend hfits hready
  cases harms with
  | arm htest hsize hemits hplace hnext hmore =>
    obtain ⟨m₁, hreach, hesp, hinv⟩ :=
      hready.jumpOn hfits.room htest he (.inl rfl) (target_eq hnext)
    have hzero : (Arith.compute .test v (.ofInt 32 1)).2.zero = true := by
      simpa [Arith.compute, Flags.ofLogic] using hv
    rw [if_pos hzero] at hreach
    have hends := hrest hmore hend hfits (hready.next hreach hesp hinv)
    rw [hesp] at hends
    exact hends.of_reaches hreach

theorem simulatesArms_noElse : A.SimulatesArms [] none ρ .normal ρ := by
  intro exit ctx k rest c D m harms hend hfits hready
  cases harms with
  | done => exact ⟨m, .refl, rfl, hready.inv⟩

theorem simulatesArms_otherwise (hbody : A.Simulates (.seq body) ρ o ρ') :
    A.SimulatesArms [] (some body) ρ o (ρ'.forget ρ) := by
  intro exit ctx k rest c D m harms hend hfits hready
  cases harms with
  | otherwise hsize hemits hplace =>
    exact (ends_block hbody hsize hemits hplace hfits hready).on fun m => Reaches.label .refl

theorem armsAt_cons {a : Arm} {next : Label} {code c more : Code} {n n' : LabelCounters}
    (ha : Emits A.drops A.result exit ctx n (.arm k next a) code n')
    (hplace : code.resolve A.drops ++ more <:+ A.code) (hnext : .label next :: c <:+ A.code)
    (hrest : A.ArmsAt exit ctx k rest arms otherwise c) :
    A.ArmsAt exit ctx k rest (a :: arms) otherwise (code.resolve A.drops ++ more) := by
  cases ha with
  | arm hsize htest hbody =>
    simp only [Code.resolve_append, Code.resolve_ofInstrs, List.append_assoc] at hplace ⊢
    exact .arm htest hsize hbody ((List.suffix_append _ _).trans hplace) hnext hrest

theorem exists_armsAt {tail : Code} {n₂ n₃ : LabelCounters}
    (helse : Emits A.drops A.result exit ctx n₂ (.otherwise k otherwise) tail n₃)
    {others : List Arm} :
    ∀ {i n₁} {code : Code},
      Emits A.drops A.result exit ctx n₁ (.arms k (.afterArms k otherwise) i others) code n₂ →
      code.resolve A.drops ++ (tail.resolve A.drops ++ .label (.ifEnd k) :: rest) <:+ A.code →
      ∃ c, .label (if others.isEmpty then .afterArms k otherwise else .elseIf k i) :: c <:+ A.code ∧
        A.ArmsAt exit ctx k rest others otherwise c := by
  induction others with
  | nil =>
    intro i n₁ code harms hplace
    cases harms with
    | armsNil =>
      cases helse with
      | otherwiseNone => exact ⟨rest, hplace, .done⟩
      | otherwiseSome hsize hbody =>
        simp only [Code.resolve_nil, List.nil_append, Code.resolve_label, List.cons_append]
          at hplace
        exact ⟨_, hplace, .otherwise hsize hbody ((List.suffix_cons _ _).trans hplace)⟩
  | cons a others ih =>
    intro i n₁ code harms hplace
    cases harms with
    | armsCons ha hrest =>
      simp only [Code.resolve_append, Code.resolve_label, List.cons_append, List.nil_append,
        List.append_assoc] at hplace
      have hcode := (List.suffix_cons _ _).trans hplace
      obtain ⟨c, hnext, hc⟩ := ih hrest ((List.suffix_append _ _).trans hcode)
      exact ⟨_, hplace, armsAt_cons ha hcode hnext hc⟩

theorem simulates_branch {first : Arm} {others : List Arm}
    (h : A.SimulatesArms (first :: others) otherwise ρ o ρ') :
    A.Simulates (.stmt (.branch first others otherwise)) ρ o ρ' := by
  intro exit ctx code rest D m hsite hready
  obtain ⟨n, n', hemits⟩ := hsite.emits
  have hplace := hsite.place
  cases hemits with
  | branch hfirst harms helse =>
    simp only [Code.resolve_append, Code.resolve_label, Code.resolve_nil, List.cons_append,
      List.nil_append, List.append_assoc] at hplace hready ⊢
    have htail := (List.suffix_append _ _).trans hplace
    have hend := (List.suffix_append _ _).trans ((List.suffix_append _ _).trans htail)
    obtain ⟨c, hnext, hc⟩ := exists_armsAt helse harms htail
    exact h (armsAt_cons hfirst hplace hnext hc) hend (hsite.fits hready.inv.laid) hready

end Branches

/-! ### Loops -/

/-- From the end of the body, or from a `continue` in it, to the head: back at once, or through the
last clause of a `for` loop. -/
inductive TurnAt (A : Activation) (ctx : Context) (body : List Stmt) (L : LoopCode) :
    Option Stmt → Prop where
  | back {more} (hlabel : L.labels.continueTo = L.head)
      (hturn : L.turn = .instr (.jump L.head) :: more) : TurnAt A ctx body L none
  | clause {increment step more n n'}
      (hstep : Emits A.drops A.result (some L.exit) (ctx.pastAll body) n (.clause increment) step
        n')
      (hturn : L.turn = .label L.labels.continueTo ::
        (step.resolve A.drops ++ .instr (.jump L.head) :: more)) : TurnAt A ctx body L increment

/-- A loop in the code of the function; `rest` follows it. -/
structure LoopAt (A : Activation) (ctx : Context) (L : LoopCode) (rest : Code)
    (condition : Option Expr) (increment : Option Stmt) (body : List Stmt) : Prop where
  structs : ctx.structs = A.structs
  test : ctx.loopTest L.done condition = .ok L.test
  emits : ∃ n n', Emits A.drops A.result (some L.exit) ctx n (.seq body) L.body n'
  turn : A.TurnAt ctx body L increment
  head : .label L.head :: L.round A <:+ A.code
  done : .label L.done :: (Code.ofInstrs (release L.size) ++ .label L.labels.breakTo :: rest) <:+
    A.code

/-- The code of a loop does what the semantics says. -/
def SimulatesLoop (A : Activation) (condition : Option Expr) (increment : Option Stmt)
    (body : List Stmt) (ρ : Env) (o : Outcome) (ρ' : Env) : Prop :=
  ∀ ⦃ctx L rest m⦄ ⦃D : Nat⦄, A.LoopAt ctx L rest condition increment body →
    (ctx.pastAll body).cursor ≤ D → A.Ready D ctx ρ ⟨L.round A, m⟩ →
    A.Ends none ctx ctx (m.esp + .ofNat 32 L.size) rest ⟨L.round A, m⟩ o ρ'

section Loops

variable {L : LoopCode} {condition : Option Expr} {increment : Option Stmt} {body : List Stmt}
  {ρ₃ : Env}

theorem Ready.loopTest {test : List Instr} {done : Label} {b : Bool} {c : Code}
    (h : A.Ready D ctx ρ ⟨Code.ofInstrs test ++ rest, m⟩) (hc : ctx.cursor ≤ D)
    (htest : ctx.loopTest done condition = .ok test) (ht : ρ.test condition = some (b, ρ'))
    (hdone : .label done :: c <:+ A.code) :
    ∃ m', A.Reaches ⟨Code.ofInstrs test ++ rest, m⟩ ⟨if b then rest else c, m'⟩ ∧
      m'.esp = m.esp ∧ A.Inv ctx ρ' m' := by
  cases condition with
  | none =>
    cases htest
    cases ht
    exact ⟨m, .refl, rfl, h.inv⟩
  | some condition =>
    obtain ⟨code, hcode, htest⟩ := except_bind_eq_ok.1 htest
    cases htest
    obtain ⟨v, he, rfl⟩ : ∃ v, condition.eval ρ = some (v, ρ') ∧ (v != 0) = b := by
      obtain ⟨⟨v, ρ₁⟩, he, ht⟩ := Option.bind_eq_some_iff.1 ht
      cases ht
      exact ⟨v, he, rfl⟩
    obtain ⟨m₁, hreach, hesp, hinv⟩ := h.jumpOn hc hcode he (.inr rfl) (target_eq hdone)
    refine ⟨m₁, ?_, hesp, hinv⟩
    have hzero : (Arith.compute .cmp v (.ofInt 32 0)).2.zero = (v == 0) := by
      simp [Arith.compute, Flags.ofSub]
    rw [hzero] at hreach
    by_cases hv : v = 0
    · rw [if_pos (beq_iff_eq.2 hv)] at hreach
      rw [if_neg (by simp [hv])]
      exact hreach
    · rw [if_neg (hv ∘ beq_iff_eq.1)] at hreach
      rw [if_pos (bne_iff_ne.2 hv)]
      exact hreach

namespace LoopAt

variable (h : A.LoopAt ctx L rest condition increment body)

include h

theorem breakTo : .label L.labels.breakTo :: rest <:+ A.code :=
  (List.suffix_append _ _).trans ((List.suffix_cons _ _).trans h.done)

theorem reaches_round {c : Code} : A.Reaches ⟨.instr (.jump L.head) :: c, m⟩ ⟨L.round A, m⟩ :=
  Reaches.jump .refl (target_eq h.head)

theorem ends_body (hroom : (ctx.pastAll body).cursor ≤ D) (hready : A.Ready D ctx ρ ⟨L.round A, m⟩)
    (ht : ρ.test condition = some (true, ρ₁)) (hbody : A.Simulates (.seq body) ρ₁ o ρ₂) :
    (∃ m₁, A.Inv ctx ρ₁ m₁) ∧
      A.Ends (some L.exit) ctx (ctx.pastAll body) m.esp L.turn ⟨L.round A, m⟩ o ρ₂ := by
  obtain ⟨start, hblock⟩ := hready.inv.laid.block
  obtain ⟨m₁, hreach, hesp, hinv⟩ := hready.loopTest
    (Int.le_trans (hblock.pastAll body).2 hroom) h.test ht h.done
  rw [if_pos rfl] at hreach
  have hsite : A.Site (some L.exit) ctx (.seq body) L.body L.turn D := by
    refine ⟨h.emits, ?_, h.structs, hroom, ?_⟩
    · exact (List.suffix_append _ _).trans ((List.suffix_cons _ _).trans h.head)
    · rintro _ ⟨⟩
      exact List.cons_ne_nil _ _
  have hends := hbody hsite (hready.next hreach hesp hinv)
  rw [hesp] at hends
  exact ⟨⟨m₁, hinv⟩, hends.of_reaches hreach⟩

end LoopAt

theorem simulatesLoop_done (ht : ρ.test condition = some (false, ρ')) :
    A.SimulatesLoop condition increment body ρ .normal ρ' := by
  intro ctx L rest m D h hroom hready
  obtain ⟨start, hblock⟩ := hready.inv.laid.block
  obtain ⟨m₁, hreach, hesp, hinv⟩ := hready.loopTest
    (Int.le_trans (hblock.pastAll body).2 hroom) h.test ht h.done
  rw [if_neg Bool.false_ne_true] at hreach
  obtain ⟨m₂, hreach₂, hesp₂, hebp, hmem⟩ :=
    exists_release A.code (.label L.labels.breakTo :: rest) A.env m₁ L.size
  exact ⟨m₂, (hreach.trans hreach₂).label, by rw [hesp₂, hesp], hinv.of_eq hebp hmem⟩

theorem simulatesLoop_broken (ht : ρ.test condition = some (true, ρ₁))
    (hbody : A.Simulates (.seq body) ρ₁ .broke ρ₂) :
    A.SimulatesLoop condition increment body ρ .normal (ρ₂.forget ρ₁) := by
  intro ctx L rest m D h hroom hready
  obtain ⟨⟨m₁, hinv⟩, e, c, m₂, he, hreach, hesp, hold⟩ := h.ends_body hroom hready ht hbody
  cases he
  exact ⟨m₂, hreach.jump (target_eq h.breakTo), hesp, hold.forget hinv⟩

theorem simulatesLoop_returned {v : Option Word} (ht : ρ.test condition = some (true, ρ₁))
    (hbody : A.Simulates (.seq body) ρ₁ (.returned v) ρ₂) :
    A.SimulatesLoop condition increment body ρ (.returned v) (ρ₂.forget ρ₁) := by
  intro ctx L rest m D h hroom hready
  obtain ⟨⟨m₁, hinv⟩, c, m₂, hreach, heax, hold⟩ := h.ends_body hroom hready ht hbody
  exact ⟨c, m₂, hreach, heax, (hold.forget hinv).holding⟩

/-- From the end of the body, or from a `continue` in it, to the last clause, and from there to the
head. In a loop without such a clause it is empty, and stands at the head. -/
theorem LoopAt.exists_clause (h : A.LoopAt ctx L rest condition increment body)
    (hroom : (ctx.pastClause increment).cursor ≤ D) (hl : ctx.Laid A.params)
    (hends : A.Ends (some L.exit) ctx (ctx.pastAll body) esp L.turn s o ρ)
    (ho : o = .normal ∨ o = .continued)
    (hclause : ∀ {n step n'},
      Emits A.drops A.result (some L.exit) (ctx.pastAll body) n (.clause increment) step n' →
      Emits A.drops A.result (some L.exit) ctx n (.clause increment) step n') :
    ∃ step next m, A.Reaches s ⟨step.resolve A.drops ++ next, m⟩ ∧ m.esp = esp ∧
      A.Holding ctx ρ m ∧ A.Site (some L.exit) ctx (.clause increment) step next D ∧
      ∀ m, A.Reaches ⟨next, m⟩ ⟨L.round A, m⟩ := by
  have hround := (List.suffix_cons _ _).trans h.head
  have hturn : L.turn <:+ A.code := (List.suffix_append _ _).trans
    ((List.suffix_append _ _).trans hround)
  have hblocks : ∀ e, some L.exit = some e → e.blocks ≠ [] := by
    rintro _ ⟨⟩
    exact List.cons_ne_nil _ _
  obtain ⟨c, m, hc, hreach, hesp, hold⟩ : ∃ c m,
      (c = L.turn ∨ ∃ c', c = .instr (.jump L.labels.continueTo) :: c') ∧
      A.Reaches s ⟨c, m⟩ ∧ m.esp = esp ∧ A.Holding ctx ρ m := by
    rcases ho with rfl | rfl
    · obtain ⟨m, hreach, hesp, hinv⟩ := hends
      exact ⟨_, m, .inl rfl, hreach, hesp,
        hinv.holding.outward hl (Context.adds_pastAll body ctx).symbols⟩
    · obtain ⟨e, c, m, he, hreach, hesp, hold⟩ := hends
      cases he
      exact ⟨_, m, .inr ⟨c, rfl⟩, hreach, by simpa [LoopCode.exit] using hesp, hold⟩
  cases h.turn with
  | @back more hlabel hback =>
    have hreach : A.Reaches s ⟨L.round A, m⟩ := by
      rcases hc with rfl | ⟨c', rfl⟩
      · rw [hback] at hreach
        exact hreach.trans h.reaches_round
      · rw [hlabel] at hreach
        exact hreach.trans h.reaches_round
    exact ⟨[], L.round A, m, hreach, hesp, hold,
      ⟨⟨{}, {}, .clauseNone⟩, hround, h.structs, hroom, hblocks⟩, fun m => .refl⟩
  | @clause _ step more n n' hstep hlabel =>
    rw [hlabel] at hturn
    have hreach : A.Reaches s ⟨step.resolve A.drops ++ .instr (.jump L.head) :: more, m⟩ := by
      rcases hc with rfl | ⟨c', rfl⟩
      · rw [hlabel] at hreach
        exact hreach.label
      · exact hreach.jump (target_eq hturn)
    exact ⟨step, _, m, hreach, hesp, hold, ⟨⟨n, n', hclause hstep⟩,
      (List.suffix_cons _ _).trans hturn, h.structs, hroom, hblocks⟩, fun m => h.reaches_round⟩

theorem simulatesLoop_next {o' : Outcome} {ρ₄ : Env} (ht : ρ.test condition = some (true, ρ₁))
    (hbody : A.Simulates (.seq body) ρ₁ o ρ₂) (ho : o = .normal ∨ o = .continued)
    (hstep : A.Simulates (.clause increment) (ρ₂.forget ρ₁) .normal ρ₃)
    (hnext : A.SimulatesLoop condition increment body ρ₃ o' ρ₄)
    (hsimple : increment.all Stmt.isSimple)
    (hclause : ∀ {exit ctx n step n'},
      Emits A.drops A.result exit (ctx.pastAll body) n (.clause increment) step n' →
      Emits A.drops A.result exit ctx n (.clause increment) step n') :
    A.SimulatesLoop condition increment body ρ o' ρ₄ := by
  intro ctx L rest m D h hroom hready
  have hpast := ctx.pastClause_of_isSimple hsimple
  obtain ⟨start, hblock⟩ := hready.inv.laid.block
  have hcursor : (ctx.pastClause increment).cursor ≤ D := by
    rw [hpast]
    exact Int.le_trans (hblock.pastAll body).2 hroom
  obtain ⟨⟨m₁, hinv⟩, hends⟩ := h.ends_body hroom hready ht hbody
  obtain ⟨step, next, m₂, hreach₂, hesp₂, hold, hsite, hround⟩ :=
    h.exists_clause hcursor hready.inv.laid hends ho hclause
  have hready₂ := hready.next hreach₂ hesp₂ (hold.forget hinv)
  obtain ⟨m₃, hreach₃, hesp₃, hinv₃⟩ := hstep hsite hready₂
  rw [Phrase.past, hpast] at hinv₃
  have hreach := (hreach₂.trans hreach₃).trans (hround m₃)
  have hesp := hesp₃.trans hesp₂
  have hmore := hnext h hroom (hready.next hreach hesp hinv₃)
  rw [hesp] at hmore
  exact hmore.of_reaches hreach

/-- From a loop to what is around it: no `break` and no `continue` leads there. -/
theorem Ends.outOfLoop {ctx' : Context} (h : A.Ends none ctx' ctx' esp rest s o ρ)
    (hinv : ∀ m, A.Inv ctx' ρ m → A.Inv ctx ρ' m)
    (hold : ∀ m, A.Holding ctx' ρ m → A.Holding ctx ρ' m) :
    A.Ends exit ctx ctx esp rest s o ρ' := by
  cases o with
  | normal =>
    obtain ⟨m, hreach, hesp, h⟩ := h
    exact ⟨m, hreach, hesp, hinv m h⟩
  | broke =>
    obtain ⟨e, c, m, he, -⟩ := h
    cases he
  | continued =>
    obtain ⟨e, c, m, he, -⟩ := h
    cases he
  | returned v =>
    obtain ⟨c, m, hreach, heax, h⟩ := h
    exact ⟨c, m, hreach, heax, hold m h⟩

theorem simulates_whileLoop {condition : Expr}
    (h : A.SimulatesLoop (some condition) none body ρ o ρ') :
    A.Simulates (.stmt (.whileLoop condition body)) ρ o ρ' := by
  intro exit ctx code rest D m hsite hready
  have hl := hready.inv.laid
  have hroom := (hsite.fits hl).room
  obtain ⟨n, n', hemits⟩ := hsite.emits
  obtain ⟨start, hblock⟩ := hl.block
  have hinner := (Context.inBlock_enter hblock .whileLoop (.inr (.inr rfl))).1
  have hplace := hsite.place
  cases hemits with
  | @whileLoop _ _ n _ _ _ size test code hsize htest hbody =>
    have hle := (hinner.pastAll body).1.cursor_le
    rw [hsize] at hle
    simp only [Code.loop, Code.resolve_append, Code.resolve_ofInstrs, Code.resolve_label,
      Code.resolve_instr, Code.resolve_nil, List.cons_append, List.nil_append, List.append_assoc]
      at hplace hready ⊢
    obtain ⟨m₁, hreach, hesp, hready₁⟩ := hready.reserve .whileLoop (.inr (.inr rfl))
    have hhead := (List.suffix_append _ _).trans hplace
    have hdone := (List.suffix_cons _ _).trans ((List.suffix_append _ _).trans
      ((List.suffix_append _ _).trans ((List.suffix_cons _ _).trans hhead)))
    let L : LoopCode :=
      { head := .whileHead n.whileLoop
        done := .whileDone n.whileLoop
        labels := ⟨.whileHead n.whileLoop, .whileEnd n.whileLoop⟩
        size := size
        test := test
        body := code
        turn := .instr (.jump (.whileHead n.whileLoop)) :: .label (.whileDone n.whileLoop) ::
          (Code.ofInstrs (release size) ++ .label (.whileEnd n.whileLoop) :: rest) }
    have hloop : A.LoopAt (ctx.enter .whileLoop) L rest (some condition) none body :=
      ⟨hsite.structs, htest, ⟨_, _, hbody⟩, .back rfl rfl, hhead, hdone⟩
    have hreach : A.Reaches _ ⟨L.round A, m₁⟩ := hreach.label
    have hends := h hloop (D := D + size) (by omega)
      (hready₁.next (Code.Steps.label _) rfl hready₁.inv)
    rw [hesp, BitVec.sub_add_cancel] at hends
    refine (hends.outOfLoop (fun m h => ?_) fun m h => ?_).of_reaches hreach
    · exact ⟨hl, h.base, ctx.symbols_enter .whileLoop ▸ h.vars, h.kept⟩
    · exact h.outward hl (by simp)

theorem simulates_forLoop {init : Option Stmt} (hinit : A.Simulates (.clause init) ρ .normal ρ₁)
    (h : A.SimulatesLoop condition increment body ρ₁ o ρ₂) :
    A.Simulates (.stmt (.forLoop init condition increment body)) ρ o (ρ₂.forget ρ) := by
  intro exit ctx code rest D m hsite hready
  have hl := hready.inv.laid
  have hroom := (hsite.fits hl).room
  obtain ⟨n, n', hemits⟩ := hsite.emits
  obtain ⟨start, hblock⟩ := hl.block
  have hinner := (Context.inBlock_enter hblock .forLoop (.inr (.inl rfl))).1
  obtain ⟨hinner₁, -⟩ := hinner.pastClause init
  obtain ⟨hinner₂, hcursor₂⟩ := hinner₁.pastAll body
  obtain ⟨hinner₃, hcursor₃⟩ := hinner₂.pastClause increment
  have hadds := Context.adds_pastClause (ctx.enter .forLoop) init
  have hsymbols : ctx.symbols <:+ ((ctx.enter .forLoop).pastClause init).symbols :=
    ctx.symbols_enter .forLoop ▸ hadds.symbols
  have hplace := hsite.place
  cases hemits with
  | @forLoop _ _ n n₁ n₂ _ _ _ _ _ size first test code step hsize hfirst htest hbody hstep =>
    have hle := hinner₃.cursor_le
    rw [hsize] at hle
    simp only [Code.loop, Code.resolve_append, Code.resolve_ofInstrs, Code.resolve_label,
      Code.resolve_instr, Code.resolve_nil, List.cons_append, List.nil_append, List.append_assoc]
      at hplace hready ⊢
    obtain ⟨m₁, hreach₁, hesp₁, hready₁⟩ := hready.reserve .forLoop (.inr (.inl rfl))
    have hplace₁ := (List.suffix_append _ _).trans hplace
    have hhead := (List.suffix_append _ _).trans hplace₁
    have hdone := (List.suffix_cons _ _).trans ((List.suffix_append _ _).trans
      ((List.suffix_cons _ _).trans ((List.suffix_append _ _).trans
        ((List.suffix_append _ _).trans ((List.suffix_cons _ _).trans hhead)))))
    -- The first clause runs once, in the scope of the loop.
    have hcursor₁ : ((ctx.enter .forLoop).pastClause init).cursor ≤ (D + size : Nat) := by omega
    obtain ⟨m₂, hreach₂, hesp₂, hinv₂⟩ :=
      hinit ⟨⟨_, _, hfirst⟩, hplace₁, hsite.structs, hcursor₁, by simp⟩ hready₁
    let L : LoopCode :=
      { head := .forHead n.forLoop
        done := .forDone n.forLoop
        labels := ⟨.forStep n.forLoop, .forEnd n.forLoop⟩
        size := size
        test := test
        body := code
        turn := .label (.forStep n.forLoop) :: (step.resolve A.drops ++
          .instr (.jump (.forHead n.forLoop)) :: .label (.forDone n.forLoop) ::
            (Code.ofInstrs (release size) ++ .label (.forEnd n.forLoop) :: rest)) }
    have hloop : A.LoopAt ((ctx.enter .forLoop).pastClause init) L rest condition increment body :=
      ⟨hadds.structs.trans hsite.structs, htest, ⟨_, _, hbody⟩, .clause hstep rfl, hhead, hdone⟩
    have hreach := (hreach₁.trans hreach₂).label
    have hends := h hloop (D := D + size) (by omega) (hready₁.next hreach₂.label hesp₂ hinv₂)
    rw [hesp₂, hesp₁, BitVec.sub_add_cancel] at hends
    refine (hends.outOfLoop (fun m h => ?_) fun m h => ?_).of_reaches hreach
    · exact (h.holding.outward hl hsymbols).forget hready.inv
    · exact ((h.outward hl hsymbols).forget hready.inv).holding

theorem simulates_clauseNone : A.Simulates (.clause none) ρ .normal ρ := by
  intro exit ctx code rest D m hsite hready
  obtain ⟨n, n', hemits⟩ := hsite.emits
  cases hemits with
  | clauseNone => exact ⟨m, .refl, rfl, hready.inv⟩

theorem simulates_clauseSome {clause : Stmt} (h : A.Simulates (.stmt clause) ρ o ρ') :
    A.Simulates (.clause (some clause)) ρ o ρ' := by
  intro exit ctx code rest D m hsite hready
  obtain ⟨n, n', hemits⟩ := hsite.emits
  cases hemits with
  | clauseSome hemits =>
    exact h ⟨⟨n, n', hemits⟩, hsite.place, hsite.structs, hsite.room, hsite.blocks⟩ hready

end Loops

end Activation

end GLang
