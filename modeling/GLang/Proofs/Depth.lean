import GLang.Proofs.Effect
import GLang.Proofs.FunctionCode
import GLang.Proofs.Labels

/-!
# The depth of the stack

In the code of a function every line has a *depth*: how far the stack pointer is below the frame
base when the line is reached, on whatever way. `Code.Balanced` says what that means. Of the labels
only the return point can be reached at several depths; the line after it resets the stack pointer.

* `Code.Flows`: code that goes from one depth to another, when the depths of labels are given.
* `EmitsWith.exists_level`: the code of a phrase comes back to the depth that it started from.
* `FunctionDecl.balanced_of_source`: the code of a function is balanced, if its operands and values
  have the sizes that the instructions take off the stack.
-/

namespace GLang

open Asm Gen

/-! ### Depths -/

namespace Asm

/-- The depth of the next line, after an instruction at depth `d`. The frame base is set at depth
zero, and the stack pointer can be set back to it from any depth. -/
def Instr.depthAfter (d : Int) : Instr → Option Int
  | move .ebp .esp => if d = 0 then some 0 else none
  | move .esp .ebp => some 0
  | pop .ebp => some (d - 4)
  | jumpZero _ | jumpEqual _ => some d
  | i => i.effect.map (d + ·)

/-- The depth of the next line, after a line at depth `d`. -/
def Line.depthAfter (d : Int) : Line → Option Int
  | .label _ => some d
  | .instr i => i.depthAfter d
  | .cleanup _ | .verbatim _ => none

/-- Whether a line can be followed by the next one. -/
def Line.fallsThrough : Line → Bool
  | .instr (.jump _) | .instr .ret => false
  | _ => true

/-- Where a line can jump to. -/
def Line.jump? : Line → Option Label
  | .instr (.jump l) | .instr (.jumpZero l) | .instr (.jumpEqual l) => some l
  | _ => none

/-- **Every line has one depth.** A function starts and returns at depth -4, above the saved frame
base. The next line, and the one line that a jump goes to, are at the depth that a line leads to;
only jumps to the return point may come from any depth. -/
structure Code.Balanced (code : Code) (depth : Nat → Int) : Prop where
  start : depth 0 = -4
  next : ∀ i line, code[i]? = some line → line.fallsThrough →
    line.depthAfter (depth i) = some (depth (i + 1))
  jump : ∀ i line l, code[i]? = some line → line.jump? = some l →
    ∃ j, (∀ k, code[k]? = some (.label l) ↔ k = j) ∧ (l = .returnPoint ∨ depth j = depth i)
  ret : ∀ i, code[i]? = some (.instr .ret) → depth i = -4

/-- A line at depth `d` leads to depth `d'`, and agrees with the depths that labels have. -/
structure Line.Leads (L : Label → Option Int) (d : Int) (line : Line) (d' : Int) : Prop where
  next : line.fallsThrough → line.depthAfter d = some d'
  label : ∀ l, line = .label l → L l = some d
  jump : ∀ l, line.jump? = some l → l = .returnPoint ∨ L l = some d
  ret : line = .instr .ret → d = -4

/-- Code that starts at depth `d` and ends at depth `d'`. -/
inductive Code.Flows (L : Label → Option Int) : Int → Code → Int → Prop where
  | nil {d} : Flows L d [] d
  | cons {d d₁ d' line code} (h : line.Leads L d d₁) (hrest : Flows L d₁ code d') :
      Flows L d (line :: code) d'

namespace Code.Flows

variable {L : Label → Option Int} {d d₁ d' : Int} {c c' : Code}

theorem append (h : Flows L d c d₁) (h' : Flows L d₁ c' d') : Flows L d (c ++ c') d' := by
  induction h with
  | nil => exact h'
  | cons hline hrest ih => exact .cons hline (ih h')

theorem single {line : Line} (h : line.Leads L d d') : Flows L d [line] d' :=
  .cons h .nil

theorem label {l : Label} (h : L l = some d) : Flows L d [.label l] d :=
  single ⟨fun _ => rfl, fun _ hl => Line.label.inj hl ▸ h, nofun, nofun⟩

theorem jump {l : Label} (h : l = .returnPoint ∨ L l = some d) (d' : Int) :
    Flows L d [.instr (.jump l)] d' :=
  single ⟨nofun, nofun, fun _ hl => Option.some.inj hl ▸ h, nofun⟩

theorem jumpZero {l : Label} (h : L l = some d) : Flows L d [.instr (.jumpZero l)] d :=
  single ⟨fun _ => rfl, nofun, fun _ hl => .inr (Option.some.inj hl ▸ h), nofun⟩

theorem jumpEqual {l : Label} (h : L l = some d) : Flows L d [.instr (.jumpEqual l)] d :=
  single ⟨fun _ => rfl, nofun, fun _ hl => .inr (Option.some.inj hl ▸ h), nofun⟩

theorem instr {i : Instr} {k : Int} (hi : i.effect = some k) : Flows L d [.instr i] (d + k) := by
  refine single ⟨fun _ => ?_, nofun, fun l hl => ?_, fun h => ?_⟩
  · have hgeneral : i.depthAfter d = i.effect.map (d + ·) := by
      unfold Instr.depthAfter
      split <;> first | rfl | cases hi
    rw [Line.depthAfter, hgeneral, hi]
    rfl
  · cases i <;> first | cases hl; done | cases hl; cases hi
  · cases h
    cases hi

theorem instrs {is : List Instr} :
    ∀ {d k : Int}, effects is = some k → Flows L d (Code.ofInstrs is) (d + k) := by
  induction is with
  | nil =>
    intro d k h
    cases h
    rw [Int.add_zero]
    exact .nil
  | cons i is ih =>
    intro d k h
    obtain ⟨m, n, hm, hn, rfl⟩ := effects_cons_eq_some.1 h
    rw [← Int.add_assoc]
    exact (instr hm).append (ih hn)

theorem instrs_of {is : List Instr} {k : Int} (h : effects is = some k) (hd : d + k = d') :
    Flows L d (Code.ofInstrs is) d' :=
  hd ▸ instrs h

theorem instrs_zero {is : List Instr} (h : effects is = some 0) :
    Flows L d (Code.ofInstrs is) d :=
  instrs_of h (Int.add_zero d)

theorem exists_depth {code : Code} (h : Flows L d code d') :
    ∃ depth : Nat → Int, depth 0 = d ∧ ∀ (i : Nat) (line : Line),
      code[i]? = some line → line.Leads L (depth i) (depth (i + 1)) := by
  induction h with
  | @nil d => exact ⟨fun _ => d, rfl, fun i line h => by simp at h⟩
  | @cons d d₁ d' line code hline hrest ih =>
    obtain ⟨depth, hzero, hdepth⟩ := ih
    refine ⟨fun i => if i = 0 then d else depth (i - 1), rfl, fun i line' h => ?_⟩
    cases i with
    | zero =>
      obtain rfl : line = line' := by simpa using h
      simpa [hzero] using hline
    | succ i => simpa using hdepth i line' (by simpa using h)

end Code.Flows

end Asm

/-! ### Phrases -/

/-- The labels that a loop is left by are at the depths around the blocks that are left. -/
structure Exit.Agrees (L : Label → Option Int) (d : Int) (e : Exit) : Prop where
  inLoop : e.blocks ≠ []
  breakTo : L e.labels.breakTo = some (d - (e.blocks.sum : Nat))
  continueTo : L e.labels.continueTo = some (d - (e.blocks.dropLast.sum : Nat))

theorem Exit.Agrees.within {L : Label → Option Int} {d : Int} {e : Exit} (h : e.Agrees L d)
    (size : Nat) : (e.within size).Agrees L (d + size) where
  inLoop := List.cons_ne_nil _ _
  breakTo := by
    simp only [Exit.within, h.breakTo, List.sum_cons, Option.some.injEq]
    omega
  continueTo := by
    simp only [Exit.within, h.continueTo, List.dropLast_cons_of_ne_nil h.inLoop, List.sum_cons,
      Option.some.injEq]
    omega

theorem Exit.agrees_of_map_within {L : Label → Option Int} {d : Int} {exit : Option Exit}
    (h : ∀ e, exit = some e → e.Agrees L d) (size : Nat) :
    ∀ e, exit.map (·.within size) = some e → e.Agrees L (d + size) := by
  intro e he
  obtain ⟨outer, houter, rfl⟩ := Option.map_eq_some_iff.1 he
  exact (h outer houter).within size

theorem Exit.agrees_loop {L : Label → Option Int} {d : Int} {labels : LoopLabels} {size : Nat}
    (hbreak : L labels.breakTo = some d) (hcontinue : L labels.continueTo = some (d + size)) :
    Exit.Agrees L (d + size) ⟨labels, [size]⟩ :=
  ⟨List.cons_ne_nil _ _, by simp [hbreak], by simp [hcontinue]⟩

/-- Where a part of an `if` statement goes on is at the depth of the statement. -/
def Phrase.Agrees (L : Label → Option Int) (d : Int) : Phrase → Prop
  | arm n next _ => L next = some d ∧ L (.ifEnd n) = some d
  | arms n last _ _ => L last = some d ∧ L (.ifEnd n) = some d
  | stmt _ | seq _ | otherwise _ _ | clause _ => True

/-- The code of a phrase goes back to the depth `d` where it starts, whenever labels have the depths
that `defs` gives to those of the phrase. -/
structure Level (exit : Option Exit) (p : Phrase) (d : Int) (code : Code)
    (defs : List (Label × Int)) : Prop where
  labels : defs.map Prod.fst = code.labels
  own : ∀ l ∈ p.ownLabels, (l, d) ∈ defs
  flows : ∀ L : Label → Option Int, (∀ q ∈ defs, L q.1 = some q.2) →
    (∀ e, exit = some e → e.Agrees L d) → p.Agrees L d → Code.Flows L d code d

theorem Level.instrs {exit : Option Exit} {p : Phrase} {d : Int} {is : List Instr}
    (hp : p.ownLabels = []) (h : effects is = some 0) : Level exit p d (Code.ofInstrs is) [] where
  labels := by simp
  own := by simp [hp]
  flows _ _ _ _ := .instrs_zero h

theorem Level.nil {exit : Option Exit} {p : Phrase} {d : Int} (hp : p.ownLabels = []) :
    Level exit p d [] [] where
  labels := rfl
  own := by simp [hp]
  flows _ _ _ _ := .nil

theorem ScopeStack.type_of_declare {s s' : ScopeStack} {x : String} {t : Ty} {symbol : Symbol}
    (h : s.declare x t = .ok (symbol, s')) : symbol.type = t := by
  obtain ⟨_, _, _, -, ha, -⟩ := declare_eq_ok.1 h
  exact Scope.type_of_allocate ha

theorem Symbol.effects_store {symbol : Symbol} {value : List Instr}
    (h : effects value = some (symbol.type.stackSize : Int)) :
    effects (value ++ symbol.storeCode) = some 0 :=
  effects_append_of h symbol.effects_storeCode (by omega)

theorem Asm.Code.Flows.test {L : Label → Option Int} {d : Int} {value : List Instr}
    {compare jump : Instr} (hvalue : effects value = some 4) (hcompare : effects [compare] = some 0)
    (hjump : Code.Flows L d [.instr jump] d) :
    Code.Flows L d (Code.ofInstrs (value ++ [.pop .eax, compare, jump])) d := by
  have hpop : effects [.pop .eax, compare] = some (-4) := effects_cons (m := -4) rfl hcompare
  have hcompared : effects (value ++ [.pop .eax, compare]) = some 0 :=
    effects_append_of hvalue hpop rfl
  rw [show value ++ [.pop .eax, compare, jump] = value ++ [.pop .eax, compare] ++ [jump] by simp,
    Code.ofInstrs_append]
  exact (Code.Flows.instrs_zero hcompared).append hjump

/-- The test of a loop leaves the stack as it was. -/
theorem Context.flows_loopTest {L : Label → Option Int} {ctx : Context} {done : Label}
    {test : List Instr} {d : Int} (condition : Option Expr) (hdone : L done = some d)
    (hc : condition.all (·.isDword ctx)) (h : ctx.loopTest done condition = .ok test) :
    Code.Flows L d (Code.ofInstrs test) d := by
  cases condition with
  | none =>
    cases h
    exact .nil
  | some condition =>
    obtain ⟨value, hv, h⟩ := except_bind_eq_ok.1 h
    cases h
    exact .test (Expr.effects_of_isDword hc hv) rfl (.jumpEqual hdone)

theorem Asm.Code.Flows.block {L : Label → Option Int} {d : Int} {size : Nat} {c : Code}
    (h : Code.Flows L (d + size) c (d + size)) : Code.Flows L d (Code.block size c) d := by
  have hrelease : Code.Flows L (d + size) (Code.ofInstrs (release size)) d :=
    .instrs_of (effects_release size) (by omega)
  exact ((Code.Flows.instrs (effects_reserve size)).append h).append hrelease

theorem Asm.Code.Flows.loop {L : Label → Option Int} {d : Int} {size : Nat} {c : Code}
    {done breakTo : Label} (h : Code.Flows L (d + size) c (d + size))
    (hdone : L done = some (d + size)) (hbreak : L breakTo = some d) :
    Code.Flows L d (Code.loop size c done breakTo) d := by
  have hrelease : Code.Flows L (d + size) (Code.ofInstrs (release size)) d :=
    .instrs_of (effects_release size) (by omega)
  exact ((((Code.Flows.instrs (effects_reserve size)).append h).append (.label hdone)).append
    hrelease).append (.label hbreak)

/-- **The code of a phrase comes back to the depth that it started from.** -/
theorem EmitsWith.exists_level {σ : Nat → Nat} {result : Option Ty} {exit : Option Exit}
    {ctx : Context} {n n' : LabelCounters} {p : Phrase} {code : Code}
    (h : EmitsWith List.sum σ result exit ctx n p code n') :
    ∀ d : Int, p.consistent result ctx → ∃ defs, Level exit p d (code.resolve σ) defs := by
  induction h with
  | declare ht hd => exact fun d _ => ⟨[], .nil rfl⟩
  | declareInit ht hv hd =>
    intro d hc
    simp only [Phrase.consistent, Stmt.consistent, ht] at hc
    have hvalue := Expr.effects_of_fits hc hv
    rw [← ScopeStack.type_of_declare hd] at hvalue
    exact ⟨[], by simpa using Level.instrs rfl (Symbol.effects_store hvalue)⟩
  | assign hv hx =>
    intro d hc
    simp only [Phrase.consistent, Stmt.consistent, hx] at hc
    have hvalue := Expr.effects_of_fits hc hv
    exact ⟨[], by simpa using Level.instrs rfl (Symbol.effects_store hvalue)⟩
  | @store exit ctx n x e t value symbol hx ht hv =>
    intro d hc
    simp only [Phrase.consistent, Stmt.consistent, hx, Except.toOption, Option.bind_some, ht] at hc
    have hvalue := Expr.effects_of_fits hc hv
    have hcode := effects_append_of (k := 0) hvalue (symbol.effects_storeThrough t) (by omega)
    exact ⟨[], by simpa using Level.instrs rfl hcode⟩
  | @storeAt exit ctx n a e t target value ht ha hv =>
    intro d hc
    simp only [Phrase.consistent, Stmt.consistent, ht, Bool.and_eq_true] at hc
    have htarget := Expr.effects_of_isDword hc.1 ha
    have hvalue := Expr.effects_of_fits hc.2 hv
    have hcode := effects_append_of (k := 0) (effects_append htarget hvalue) t.effects_storeIndirect
      (by omega)
    exact ⟨[], by simpa using Level.instrs rfl hcode⟩
  | @step exit ctx n op x symbol hx hp =>
    exact fun d _ => ⟨[], by simpa using Level.instrs rfl (symbol.effects_stepCode op)⟩
  | @breakLoop e ctx n m hm =>
    refine fun d _ => ⟨[], by simp, by simp [Phrase.ownLabels], fun L _ hexit _ => ?_⟩
    have hdrop : Code.Flows L d (Code.ofInstrs (release (σ m))) (d - (e.blocks.sum : Nat)) :=
      .instrs_of (effects_release _) (by rw [hm]; omega)
    simpa using hdrop.append (.jump (.inr (hexit e rfl).breakTo) d)
  | @continueLoop e ctx n hzero =>
    refine fun d _ => ⟨[], by simp, by simp [Phrase.ownLabels], fun L _ hexit _ => ?_⟩
    have htarget := (hexit e rfl).continueTo
    rw [hzero, Int.natCast_zero, Int.sub_zero] at htarget
    simpa using Code.Flows.jump (.inr htarget) d
  | ret =>
    refine fun d _ => ⟨[], by simp, by simp [Phrase.ownLabels], fun L _ _ _ => ?_⟩
    simpa using Code.Flows.jump (.inl rfl) d
  | @retValue exit ctx n e value take hv ht =>
    intro d hc
    simp only [Phrase.consistent, Stmt.consistent, Bool.and_eq_true] at hc
    refine ⟨[], by simp, by simp [Phrase.ownLabels], fun L _ _ _ => ?_⟩
    have hvalue := Expr.effects_of_hasSize hc.1 hc.2 hv
    have hcode := effects_append_of (k := 0) hvalue (Context.effects_returnCode ht) (by omega)
    simpa using (Code.Flows.instrs_zero (d := d) hcode).append (.jump (.inl rfl) d)
  | run hc =>
    intro d hconsistent
    exact ⟨[], by simpa using Level.instrs rfl (Expr.effects_lowerCall hconsistent hc)⟩
  | seqNil | armsNil | otherwiseNone | clauseNone => exact fun d _ => ⟨[], .nil rfl⟩
  | clauseSome hs ih =>
    intro d hc
    obtain ⟨defs, hlevel⟩ := ih d hc
    exact ⟨defs, hlevel.labels, by simp [Phrase.ownLabels], hlevel.flows⟩
  | seqCons hs hrest ih₁ ih₂ =>
    intro d hc
    obtain ⟨hc₁, hc₂⟩ := Bool.and_eq_true_iff.1 hc
    obtain ⟨defs₁, h₁⟩ := ih₁ d hc₁
    obtain ⟨defs₂, h₂⟩ := ih₂ d hc₂
    refine ⟨defs₁ ++ defs₂, by simp [h₁.labels, h₂.labels], by simp [Phrase.ownLabels],
      fun L hL hexit _ => ?_⟩
    rw [List.forall_mem_append] at hL
    rw [Code.resolve_append]
    exact (h₁.flows L hL.1 hexit trivial).append (h₂.flows L hL.2 hexit trivial)
  | @arm exit ctx n n' k next condition body size test code hsize htest hbody ih =>
    intro d hc
    obtain ⟨hc₁, hc₂⟩ := Bool.and_eq_true_iff.1 hc
    obtain ⟨defs, hlevel⟩ := ih (d + size) hc₂
    refine ⟨defs, by simp [hlevel.labels], by simp [Phrase.ownLabels], fun L hL hexit hp => ?_⟩
    have hskip : Code.Flows L d
        (Code.ofInstrs (test ++ [.pop .eax, .arith .test .eax (.imm 1), .jumpZero next])) d :=
      .test (Expr.effects_of_isDword hc₁ htest) rfl (.jumpZero hp.1)
    have hinner := hlevel.flows L hL (Exit.agrees_of_map_within hexit size) trivial
    have hcode := (hskip.append hinner.block).append (.jump (.inr hp.2) d)
    simpa [Code.block, -Code.ofInstrs_append] using hcode
  | @otherwiseSome exit ctx n n' k body size code hsize hbody ih =>
    intro d hc
    obtain ⟨defs, hlevel⟩ := ih (d + size) hc
    refine ⟨(.otherwise k, d) :: defs, by simp [hlevel.labels], by simp [Phrase.ownLabels],
      fun L hL hexit _ => ?_⟩
    rw [List.forall_mem_cons] at hL
    have hinner := hlevel.flows L hL.2 (Exit.agrees_of_map_within hexit size) trivial
    simpa [Code.block] using (Code.Flows.label hL.1).append hinner.block
  | @armsCons exit ctx n n₁ n₂ k last i a rest code more ha hrest ih₁ ih₂ =>
    intro d hc
    obtain ⟨hc₁, hc₂⟩ := Bool.and_eq_true_iff.1 hc
    obtain ⟨defs₁, h₁⟩ := ih₁ d hc₁
    obtain ⟨defs₂, h₂⟩ := ih₂ d hc₂
    refine ⟨(.elseIf k i, d) :: defs₁ ++ defs₂, by simp [h₁.labels, h₂.labels], ?_,
      fun L hL hexit hp => ?_⟩
    · intro l hl
      simp only [Phrase.ownLabels, List.length_cons, List.range'_succ, List.map_cons,
        List.mem_cons] at hl
      rcases hl with rfl | hl
      · simp
      · exact List.mem_append_right _ (h₂.own l hl)
    · rw [List.forall_mem_append, List.forall_mem_cons] at hL
      -- A condition that fails goes on to the next arm, or past all of them.
      have hnext : L (if rest.isEmpty then last else .elseIf k (i + 1)) = some d := by
        cases rest with
        | nil => exact hp.1
        | cons b rest =>
          exact hL.2 _ (h₂.own _ (by simp [Phrase.ownLabels, List.range'_succ]))
      simpa using ((Code.Flows.label hL.1.1).append (h₁.flows L hL.1.2 hexit ⟨hnext, hp.2⟩)).append
        (h₂.flows L hL.2 hexit hp)
  | @branch exit ctx n n₁ n₂ n₃ first others otherwise head arms tail hfirst harms helse ih₁ ih₂
      ih₃ =>
    intro d hc
    simp only [Phrase.consistent, Stmt.consistent, Bool.and_eq_true] at hc
    obtain ⟨defs₁, h₁⟩ := ih₁ d hc.1.1
    obtain ⟨defs₂, h₂⟩ := ih₂ d hc.1.2
    obtain ⟨defs₃, h₃⟩ := ih₃ d hc.2
    refine ⟨defs₁ ++ defs₂ ++ defs₃ ++ [(.ifEnd n.branch, d)],
      by simp [h₁.labels, h₂.labels, h₃.labels], by simp [Phrase.ownLabels],
      fun L hL hexit _ => ?_⟩
    simp only [List.forall_mem_append, List.forall_mem_singleton] at hL
    obtain ⟨⟨⟨hL₁, hL₂⟩, hL₃⟩, hend⟩ := hL
    have hlast : L (.afterArms n.branch otherwise) = some d := by
      cases otherwise with
      | none => exact hend
      | some body => exact hL₃ _ (h₃.own _ (by simp [Phrase.ownLabels]))
    have hnext : L (if others.isEmpty then .afterArms n.branch otherwise
        else .elseIf n.branch 0) = some d := by
      cases others with
      | nil => exact hlast
      | cons b rest => exact hL₂ _ (h₂.own _ (by simp [Phrase.ownLabels, List.range'_succ]))
    simpa using (((h₁.flows L hL₁ hexit ⟨hnext, hend⟩).append
      (h₂.flows L hL₂ hexit ⟨hlast, hend⟩)).append (h₃.flows L hL₃ hexit trivial)).append
      (.label hend)
  | @whileLoop exit ctx n n' condition body size test code hsize htest hbody ih =>
    intro d hc
    simp only [Phrase.consistent, Stmt.consistent, Bool.and_eq_true] at hc
    obtain ⟨defs, hlevel⟩ := ih (d + size) hc.2
    refine ⟨(.whileHead n.whileLoop, d + size) :: defs ++
      [(.whileDone n.whileLoop, d + size), (.whileEnd n.whileLoop, d)],
      by simp [hlevel.labels, Code.loop], by simp [Phrase.ownLabels], fun L hL hexit _ => ?_⟩
    simp only [List.forall_mem_append, List.forall_mem_cons, List.not_mem_nil, false_imp_iff,
      implies_true, and_true] at hL
    obtain ⟨⟨hhead, hdefs⟩, hdone, hend⟩ := hL
    have hbody := hlevel.flows L hdefs
      (fun e he => Option.some.inj he ▸ Exit.agrees_loop hend hhead) trivial
    have hcode := (((Code.Flows.label hhead).append
      (Context.flows_loopTest (some condition) hdone hc.1 htest)).append hbody).append
      (.jump (.inr hhead) (d + size))
    simpa [Code.loop] using hcode.loop hdone hend
  | @forLoop exit ctx n n₁ n₂ n₃ init condition increment body size first test code step hsize hinit
      htest hbody hstep ih₁ ih₂ ih₃ =>
    intro d hc
    simp only [Phrase.consistent, Stmt.consistent, Bool.and_eq_true] at hc
    obtain ⟨⟨⟨hc₁, hc₂⟩, hc₃⟩, hc₄⟩ := hc
    obtain ⟨defs₁, h₁⟩ := ih₁ (d + size) hc₁
    obtain ⟨defs₂, h₂⟩ := ih₂ (d + size) hc₃
    obtain ⟨defs₃, h₃⟩ := ih₃ (d + size) hc₄
    refine ⟨defs₁ ++ (.forHead n.forLoop, d + size) :: defs₂ ++
      (.forStep n.forLoop, d + size) :: defs₃ ++
      [(.forDone n.forLoop, d + size), (.forEnd n.forLoop, d)],
      by simp [h₁.labels, h₂.labels, h₃.labels, Code.loop], by simp [Phrase.ownLabels],
      fun L hL hexit _ => ?_⟩
    simp only [List.forall_mem_append, List.forall_mem_cons, List.not_mem_nil, false_imp_iff,
      implies_true, and_true] at hL
    obtain ⟨⟨⟨hL₁, hhead, hL₂⟩, hstepLabel, hL₃⟩, hdone, hend⟩ := hL
    have hexit' : ∀ e, some (⟨⟨.forStep n.forLoop, .forEnd n.forLoop⟩, [size]⟩ : Exit) = some e →
        e.Agrees L (d + size) :=
      fun e he => Option.some.inj he ▸ Exit.agrees_loop hend hstepLabel
    have hcode := ((((((h₁.flows L hL₁ hexit' trivial).append (.label hhead)).append
      (Context.flows_loopTest condition hdone hc₂ htest)).append
      (h₂.flows L hL₂ hexit' trivial)).append
      (.label hstepLabel)).append (h₃.flows L hL₃ hexit' trivial)).append
      (.jump (.inr hhead) (d + size))
    simpa [Code.loop] using hcode.loop hdone hend

/-! ### Functions -/

/-- Whether in a function all operands, conditions and addresses take four bytes, and all values
that are stored or returned take what their place takes. -/
def FunctionDecl.consistent (d : Declarations) (decl : FunctionDecl) : Bool :=
  match d.functions.get decl.name with
  | .error _ => false
  | .ok signature =>
    match signature.entry d with
    | .error _ => false
    | .ok ctx => Stmt.allConsistent signature.result ctx decl.body

theorem FunctionDecl.flows_frameCode {L : Label → Option Int} {name : String} {frame : Nat}
    {body : Code} (hname : L (.named name) = some (-4))
    (hreturn : L .returnPoint = some (frame : Int)) (hbody : Code.Flows L frame body frame) :
    Code.Flows L (-4) (frameCode name frame body) 0 := by
  have hsave : Code.Flows L (-4) [.instr (.pushReg .ebp)] 0 := .instr (k := 4) rfl
  have hbase : Code.Flows L 0 [.instr (.move .ebp .esp)] 0 :=
    .single ⟨fun _ => rfl, nofun, nofun, nofun⟩
  have hreserve : Code.Flows L 0 (Code.ofInstrs (reserve frame)) frame :=
    .instrs_of (effects_reserve frame) (Int.zero_add _)
  have hreset : Code.Flows L frame [.instr (.move .esp .ebp)] 0 :=
    .single ⟨fun _ => rfl, nofun, nofun, nofun⟩
  have hrestore : Code.Flows L 0 [.instr (.pop .ebp)] (-4) :=
    .single ⟨fun _ => rfl, nofun, nofun, nofun⟩
  have hret : Code.Flows L (-4) [.instr .ret] 0 :=
    .single ⟨nofun, nofun, nofun, fun _ => rfl⟩
  have hall := (((((((Code.Flows.label hname).append hsave).append hbase).append hreserve).append
    hbody).append (.label hreturn)).append hreset).append (hrestore.append hret)
  simpa [frameCode, Code.ofInstrs] using hall

/-- Code that flows, with each label once, is balanced. -/
theorem Asm.Code.Flows.balanced {L : Label → Option Int} {code : Code} {d : Int}
    (h : Code.Flows L (-4) code d) (hnodup : code.labels.Nodup)
    (hreturn : .returnPoint ∈ code.labels)
    (hL : ∀ l d, L l = some d → l ∈ code.labels) : ∃ depth, code.Balanced depth := by
  obtain ⟨depth, hzero, hdepth⟩ := h.exists_depth
  refine ⟨depth, hzero, fun i line hi => (hdepth i line hi).next, fun i line l hi hl => ?_,
    fun i hi => (hdepth i _ hi).ret rfl⟩
  have hmem : l ∈ code.labels := by
    rcases (hdepth i line hi).jump l hl with rfl | hlabel
    · exact hreturn
    · exact hL l _ hlabel
  obtain ⟨j, hj⟩ := Code.exists_getElem?_iff_of_mem hnodup hmem
  refine ⟨j, hj, ((hdepth i line hi).jump l hl).imp_right fun hlabel => ?_⟩
  have hagain := (hdepth j _ ((hj j).2 rfl)).label l rfl
  exact Option.some.inj (hagain.symm.trans hlabel)

/-- **Stack depths are consistent.** In the code of a function whose operands and values have the
right sizes, every line can be given a depth that is right on every way to it, if nested blocks
reserve less than `2 ^ 32` bytes. -/
theorem FunctionDecl.balanced_of_source {source : String} {p : Program} {decl : FunctionDecl}
    {g g' : Generator} {code : Code} (hp : Program.ofSource source = .ok p)
    (hd : .function decl ∈ p.items) (h : Returns decl.lower g code g')
    (hc : decl.consistent g.context.toDeclarations)
    (hpeak : decl.peak g.context.toDeclarations < 2 ^ 32) : ∃ depth, code.Balanced depth := by
  obtain ⟨signature, ctx, raw, σ, hsignature, -, hentry, rfl, hemits, -, -⟩ :=
    emits_of_returns (wellFormed_of_source hp hd) h
  simp only [FunctionDecl.consistent, hsignature, hentry] at hc
  rw [peak_eq hsignature hentry, ← Nat.zero_add (Stmt.peakAll ctx decl.body)] at hpeak
  obtain ⟨defs, hlevel⟩ := (hemits.exact hpeak).exists_level (ctx.pastAll decl.body).frameSize hc
  let all : List (Label × Int) := (.named decl.name, -4) :: defs ++
    [(.returnPoint, ((ctx.pastAll decl.body).frameSize : Int))]
  have hlabels : all.map Prod.fst = (frameCode decl.name (ctx.pastAll decl.body).frameSize
      (raw.resolve σ)).labels := by
    simp [all, hlevel.labels]
  have hnodup : (all.map Prod.fst).Nodup := hlabels ▸ hemits.nodup_labels_frameCode _ _
  have hL : ∀ q ∈ all, all.lookup q.1 = some q.2 := fun q hq => lookup_eq_some_of_mem hnodup hq
  have hbody := hlevel.flows (fun l => all.lookup l)
    (fun q hq => hL q (List.mem_append_left _ (List.mem_cons_of_mem _ hq))) nofun trivial
  have hflows := flows_frameCode (hL (.named decl.name, -4) (by simp [all]))
    (hL (.returnPoint, ((ctx.pastAll decl.body).frameSize : Int)) (by simp [all])) hbody
  refine hflows.balanced (hlabels ▸ hnodup) (by simp) fun l d hl => ?_
  obtain ⟨before, after, heq, -⟩ := List.lookup_eq_some_iff.1 hl
  rw [← hlabels, heq]
  simp

/-- A function with a struct that is passed, returned and copied, and a `break` out of a block with
locals. -/
theorem FunctionDecl.balanced_of_source_of_struct : ∃ p decl, ∃ code : Code, ∃ g',
    Program.ofSource "struct P { a: i32; b: i8; c: i32; }
      fn g(n: i32, p: P) -> P { var q: P = p;
        while (n) { var x: i32 = n;
          if (x < 3) { var y: P = g(x++, q); q = g(n + 1, y); break; } n = n - 1; }
        return q; }" = .ok p ∧ .function decl ∈ p.items ∧
    Returns decl.lower (Generator.start {} p).1 code g' ∧
    decl.consistent (Generator.start {} p).1.context.toDeclarations ∧
    decl.peak (Generator.start {} p).1.context.toDeclarations = 16 ∧
    ∃ depth, code.Balanced depth := by
  obtain ⟨p, decl, code, g', hp, hd, h, hcheck⟩ := exists_of_someFunction
    "struct P { a: i32; b: i8; c: i32; }
      fn g(n: i32, p: P) -> P { var q: P = p;
        while (n) { var x: i32 = n;
          if (x < 3) { var y: P = g(x++, q); q = g(n + 1, y); break; } n = n - 1; }
        return q; }"
    (fun g decl _ => decl.consistent g.context.toDeclarations &&
      decide (decl.peak g.context.toDeclarations = 16))
    (by decide +kernel)
  obtain ⟨hc, hpeak⟩ := Bool.and_eq_true_iff.1 hcheck
  have hpeak := of_decide_eq_true hpeak
  exact ⟨p, decl, code, g', hp, hd, h, hc, hpeak, balanced_of_source hp hd h hc (by omega)⟩

end GLang
