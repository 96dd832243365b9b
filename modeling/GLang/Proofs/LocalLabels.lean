import GLang.Proofs.Skeleton
import GLang.Proofs.Symbols

/-!
# Labels and jumps inside a function

The labels and jumps of a function are those of its skeleton: `Spells.filter_isControl`. There every
jump goes to a label that the same function defines (`Stmt.targets_blockEvents`), and a `break` or a
`continue` goes to a label of the innermost loop around it. Since labels differ in their texts, no
local label is defined twice.

`Generator.labels_and_jumps` says this of all functions of a listing.
-/

namespace GLang

open Asm Gen

/-! ### The labels and jumps of code -/

namespace Asm.Code

/-- The labels that code jumps to, in order. -/
def targets (code : Code) : List Label :=
  code.filterMap Line.jump?

@[simp] theorem targets_nil : targets [] = [] := rfl

@[simp] theorem targets_append (c d : Code) : targets (c ++ d) = targets c ++ targets d :=
  List.filterMap_append

@[simp] theorem targets_label (l : Label) (c : Code) : targets (.label l :: c) = targets c := rfl

@[simp] theorem targets_jump (l : Label) (c : Code) :
    targets (.instr (.jump l) :: c) = l :: targets c := rfl

@[simp] theorem targets_jumpZero (l : Label) (c : Code) :
    targets (.instr (.jumpZero l) :: c) = l :: targets c := rfl

@[simp] theorem targets_jumpEqual (l : Label) (c : Code) :
    targets (.instr (.jumpEqual l) :: c) = l :: targets c := rfl

/-- A line that is neither a label nor a jump. -/
theorem none_of_not_isControl {line : Line} (h : line.isControl = false) :
    line.label? = none ∧ line.jump? = none := by
  cases line with
  | label => cases h
  | instr i => exact ⟨rfl, by simpa [Line.isControl] using h⟩
  | cleanup | verbatim => exact ⟨rfl, rfl⟩

theorem labels_filter_isControl (code : Code) :
    labels (code.filter Line.isControl) = code.labels := by
  unfold labels
  rw [List.filterMap_filter]
  refine List.filterMap_congr fun line _ => ?_
  cases hline : line.isControl with
  | true => rfl
  | false => exact (none_of_not_isControl hline).1.symm

theorem targets_filter_isControl (code : Code) :
    targets (code.filter Line.isControl) = code.targets := by
  unfold targets
  rw [List.filterMap_filter]
  refine List.filterMap_congr fun line _ => ?_
  cases hline : line.isControl with
  | true => rfl
  | false => exact (none_of_not_isControl hline).2.symm

end Asm.Code

namespace Event

/-- The label or the jump that an event is. -/
def line? : Event → Option Line
  | line l => some l
  | value _ | run _ _ => none

/-- The labels and jumps among events. -/
def lines (es : List Event) : Code :=
  es.filterMap line?

@[simp] theorem lines_nil : lines [] = [] := rfl

@[simp] theorem lines_append (es es' : List Event) : lines (es ++ es') = lines es ++ lines es' :=
  List.filterMap_append

@[simp] theorem lines_line (l : Line) (es : List Event) : lines (.line l :: es) = l :: lines es :=
  rfl

@[simp] theorem lines_value (e : Expr) (es : List Event) : lines (.value e :: es) = lines es := rfl

@[simp] theorem lines_run (f : String) (args : List Expr) (es : List Event) :
    lines (.run f args :: es) = lines es := rfl

end Event

/-- The code of an expression has neither labels nor jumps. -/
theorem Straight.filter_isControl {d : Declarations} {instrs : List Instr}
    (h : Straight d instrs) : (Code.ofInstrs instrs).filter Line.isControl = [] := by
  refine List.filter_eq_nil_iff.2 (List.forall_mem_map.2 (h.forall_mem (fun i hi => ?_) ?_ ?_))
  · cases i <;> simp_all [Line.isControl, Line.jump?]
  · simp [Line.isControl, Line.jump?]
  · simp [Line.isControl, Line.jump?]

/-- **The labels and jumps of code are those of its events.** -/
theorem Spells.filter_isControl {d : Declarations} {es : List Event} {code : Code}
    (h : Spells d es code) : code.filter Line.isControl = Event.lines es := by
  induction h with
  | nil => rfl
  | line hl _ ih => rw [List.filter_cons_of_pos hl, ih, Event.lines_line]
  | moves hm _ ih =>
    have hnone := (Straight.moves (d := d) hm).filter_isControl
    rw [List.filter_append, hnone, ih, List.nil_append]
  | cleanup _ ih => rw [List.filter_cons_of_neg (by simp [Line.isControl, Line.jump?]), ih]
  | value _ he _ ih =>
    rw [List.filter_append, (Expr.straight_lower he).filter_isControl, ih]
    rfl
  | run _ hc _ ih =>
    rw [List.filter_append, (Expr.straight_lowerCall hc).filter_isControl, ih]
    rfl

/-- There is nothing in code but labels, instructions and placeholders. -/
theorem Spells.line_cases {d : Declarations} {es : List Event} {code : Code}
    (h : Spells d es code) :
    ∀ line ∈ code, (∃ l, line = .label l) ∨ (∃ i, line = .instr i) ∨ ∃ m, line = .cleanup m := by
  have hinstrs : ∀ instrs : List Instr, ∀ line ∈ Code.ofInstrs instrs,
      (∃ l, line = .label l) ∨ (∃ i, line = .instr i) ∨ ∃ m, line = .cleanup m := by
    intro instrs line hline
    obtain ⟨i, -, rfl⟩ := List.mem_map.1 hline
    exact .inr (.inl ⟨i, rfl⟩)
  induction h with
  | nil => simp
  | @line l es code hl _ ih =>
    refine List.forall_mem_cons.2 ⟨?_, ih⟩
    cases l with
    | label l => exact .inl ⟨l, rfl⟩
    | instr i => exact .inr (.inl ⟨i, rfl⟩)
    | cleanup | verbatim => cases hl
  | moves _ _ ih => exact List.forall_mem_append.2 ⟨hinstrs _, ih⟩
  | cleanup _ ih => exact List.forall_mem_cons.2 ⟨.inr (.inr ⟨_, rfl⟩), ih⟩
  | value _ _ _ ih => exact List.forall_mem_append.2 ⟨hinstrs _, ih⟩
  | run _ _ _ ih => exact List.forall_mem_append.2 ⟨hinstrs _, ih⟩

/-! ### Where jumps go -/

/-- The ways out of a statement lead into `T`: to the return point, and to the labels of the loop
around it if there is one. -/
structure LeavesInto (T : List Label) (loop : Option LoopLabels) : Prop where
  ret : .returnPoint ∈ T
  loop : ∀ l, loop = some l → l.continueTo ∈ T ∧ l.breakTo ∈ T

/-- The jumps among events go to labels in `T`, if the labels that they define are in `T`. -/
def Event.JumpInto (T : List Label) (es : List Event) : Prop :=
  (lines es).labels ⊆ T → (lines es).targets ⊆ T

namespace Stmt

theorem elseIf_mem_armsEvents (loop : Option LoopLabels) (n : LabelCounters) (k : Nat)
    (last : Label) (i : Nat) {arms : List Arm} (h : arms.isEmpty = false) :
    .elseIf k i ∈ (Event.lines (armsEvents loop n k last i arms).1).labels := by
  cases arms with
  | nil => cases h
  | cons a rest => simp [armsEvents]

theorem otherwise_mem_elseEvents (loop : Option LoopLabels) (n : LabelCounters) (k : Nat)
    {body : Option (List Stmt)} (h : body.isSome) :
    .otherwise k ∈ (Event.lines (elseEvents loop n k body).1).labels := by
  cases body with
  | none => cases h
  | some body => simp [elseEvents]

variable {T : List Label}

mutual

/-- The jumps of a statement go to its own labels, to the return point or out of the loop around. -/
theorem targets_events : ∀ (s : Stmt) (loop : Option LoopLabels) (n : LabelCounters),
    LeavesInto T loop → Event.JumpInto T (s.events loop n).1
  | .declare _ _ none, loop, n, _ | .step _ _, loop, n, _ => by simp [Event.JumpInto, events]
  | .declare _ _ (some _), loop, n, _ | .assign _ _, loop, n, _ | .store _ _, loop, n, _ => by
    simp [Event.JumpInto, events]
  | .storeAt _ _, loop, n, _ => by simp [Event.JumpInto, events]
  | .breakLoop, none, n, _ | .continueLoop, none, n, _ => by simp [Event.JumpInto, events]
  | .breakLoop, some l, n, h => by simp [Event.JumpInto, events, (h.loop l rfl).2]
  | .continueLoop, some l, n, h => by simp [Event.JumpInto, events, (h.loop l rfl).1]
  | .ret none, loop, n, h | .ret (some _), loop, n, h => by simp [Event.JumpInto, events, h.ret]
  | .run e, loop, n, _ => by cases e <;> simp [Event.JumpInto, events]
  | .branch first others otherwise, loop, n, h => by
    intro hlabels
    simp only [events, Event.lines_append, Code.labels_append, Code.targets_append,
      List.append_subset] at hlabels ⊢
    obtain ⟨⟨⟨hfirst, harms⟩, helse⟩, hend⟩ := hlabels
    have hend : Label.ifEnd n.branch ∈ T := hend (by simp)
    have hlast : Label.afterArms n.branch otherwise ∈ T := by
      unfold Label.afterArms
      split
      · rename_i hsome
        exact helse (otherwise_mem_elseEvents _ _ _ hsome)
      · exact hend
    have hnext : (if others.isEmpty then Label.afterArms n.branch otherwise
        else .elseIf n.branch 0) ∈ T := by
      split
      · exact hlast
      · rename_i hsome
        exact harms (elseIf_mem_armsEvents _ _ _ _ _ (by simpa using hsome))
    refine ⟨⟨⟨?_, ?_⟩, ?_⟩, by simp⟩
    · exact targets_armEvents first loop _ _ _ h hnext hend hfirst
    · exact targets_armsEvents others loop _ _ _ _ h hlast hend harms
    · exact targets_elseEvents otherwise loop _ _ h helse
  | .whileLoop condition body, loop, n, h => by
    intro hlabels
    simp only [events, Event.test, Event.lines_append, Code.labels_append, Code.targets_append,
      List.append_subset] at hlabels ⊢
    obtain ⟨⟨⟨hhead, -⟩, hbody⟩, hend⟩ := hlabels
    have hhead : Label.whileHead n.whileLoop ∈ T := hhead (by simp)
    have hdone : Label.whileDone n.whileLoop ∈ T := hend (by simp)
    have hbreak : Label.whileEnd n.whileLoop ∈ T := hend (by simp)
    have hloop : LeavesInto T (some ⟨.whileHead n.whileLoop, .whileEnd n.whileLoop⟩) := by
      refine ⟨h.ret, ?_⟩
      rintro l ⟨⟩
      exact ⟨hhead, hbreak⟩
    refine ⟨⟨⟨by simp, by simpa using hdone⟩, ?_⟩, by simpa using hhead⟩
    exact targets_blockEvents body _ _ hloop hbody
  | .forLoop init condition increment body, loop, n, h => by
    intro hlabels
    simp only [events, Event.lines_append, Code.labels_append, Code.targets_append,
      List.append_subset] at hlabels ⊢
    obtain ⟨⟨⟨⟨⟨⟨hinit, hhead⟩, -⟩, hbody⟩, hstep⟩, hincrement⟩, hend⟩ := hlabels
    have hhead : Label.forHead n.forLoop ∈ T := hhead (by simp)
    have hstep : Label.forStep n.forLoop ∈ T := hstep (by simp)
    have hdone : Label.forDone n.forLoop ∈ T := hend (by simp)
    have hbreak : Label.forEnd n.forLoop ∈ T := hend (by simp)
    have hloop : LeavesInto T (some ⟨.forStep n.forLoop, .forEnd n.forLoop⟩) := by
      refine ⟨h.ret, ?_⟩
      rintro l ⟨⟩
      exact ⟨hstep, hbreak⟩
    have htest : (Event.lines (Event.test (.forDone n.forLoop) condition)).targets ⊆ T := by
      cases condition <;> simp [Event.test, hdone]
    refine ⟨⟨⟨⟨⟨⟨?_, by simp⟩, htest⟩, ?_⟩, by simp⟩, ?_⟩, by simpa using hhead⟩
    · exact targets_clauseEvents init _ _ hloop hinit
    · exact targets_blockEvents body _ _ hloop hbody
    · exact targets_clauseEvents increment _ _ hloop hincrement

theorem targets_blockEvents : ∀ (body : List Stmt) (loop : Option LoopLabels) (n : LabelCounters),
    LeavesInto T loop → Event.JumpInto T (blockEvents loop n body).1
  | [], loop, n, _ => by simp [Event.JumpInto, blockEvents]
  | s :: rest, loop, n, h => by
    intro hlabels
    simp only [blockEvents, Event.lines_append, Code.labels_append, Code.targets_append,
      List.append_subset] at hlabels ⊢
    exact ⟨targets_events s loop n h hlabels.1, targets_blockEvents rest loop _ h hlabels.2⟩

theorem targets_armEvents : ∀ (a : Arm) (loop : Option LoopLabels) (n : LabelCounters) (k : Nat)
    (next : Label), LeavesInto T loop → next ∈ T → .ifEnd k ∈ T →
      Event.JumpInto T (armEvents loop n k next a).1
  | .mk condition body, loop, n, k, next, h, hnext, hend => by
    intro hlabels
    simp only [armEvents, Event.lines_append, Code.labels_append, Code.targets_append,
      List.append_subset] at hlabels ⊢
    refine ⟨⟨by simpa using hnext, ?_⟩, by simpa using hend⟩
    exact targets_blockEvents body loop n h hlabels.1.2

theorem targets_armsEvents : ∀ (arms : List Arm) (loop : Option LoopLabels) (n : LabelCounters)
    (k : Nat) (last : Label) (i : Nat), LeavesInto T loop → last ∈ T → .ifEnd k ∈ T →
      Event.JumpInto T (armsEvents loop n k last i arms).1
  | [], loop, n, k, last, i, _, _, _ => by simp [Event.JumpInto, armsEvents]
  | a :: rest, loop, n, k, last, i, h, hlast, hend => by
    intro hlabels
    simp only [armsEvents, Event.lines_append, Code.labels_append, Code.targets_append,
      List.append_subset] at hlabels ⊢
    obtain ⟨⟨-, hfirst⟩, hrest⟩ := hlabels
    have hnext : (if rest.isEmpty then last else .elseIf k (i + 1)) ∈ T := by
      split
      · exact hlast
      · rename_i hsome
        exact hrest (elseIf_mem_armsEvents _ _ _ _ _ (by simpa using hsome))
    refine ⟨⟨by simp, ?_⟩, ?_⟩
    · exact targets_armEvents a loop n k _ h hnext hend hfirst
    · exact targets_armsEvents rest loop _ k last (i + 1) h hlast hend hrest

theorem targets_elseEvents : ∀ (body : Option (List Stmt)) (loop : Option LoopLabels)
    (n : LabelCounters) (k : Nat), LeavesInto T loop →
      Event.JumpInto T (elseEvents loop n k body).1
  | none, loop, n, k, _ => by simp [Event.JumpInto, elseEvents]
  | some body, loop, n, k, h => by
    intro hlabels
    simp only [elseEvents, Event.lines_append, Code.labels_append, Code.targets_append,
      List.append_subset] at hlabels ⊢
    exact ⟨by simp, targets_blockEvents body loop n h hlabels.2⟩

theorem targets_clauseEvents : ∀ (clause : Option Stmt) (loop : Option LoopLabels)
    (n : LabelCounters), LeavesInto T loop → Event.JumpInto T (clauseEvents loop n clause).1
  | none, loop, n, _ => by simp [Event.JumpInto, clauseEvents]
  | some s, loop, n, h => by
    simp only [clauseEvents]
    exact targets_events s loop n h

end

end Stmt

/-! ### Functions -/

/-- The local labels of the code of a function: each text is defined once, and every jump goes to
one of them. -/
structure Asm.Code.WellLabelled (code : Code) : Prop where
  lines : ∀ line ∈ code, (∃ l, line = .label l) ∨ ∃ i, line = .instr i
  nodup : ((code.labels.map Label.text).filter isLocalName).Nodup
  jumps : ∀ line ∈ code, ∀ l, line.jump? = some l → isLocalName l.text ∧ l ∈ code.labels

namespace FunctionDecl

/-- The labels and jumps of a function, its labels being numbered from `n` on. -/
def flow (decl : FunctionDecl) (n : LabelCounters) : Code :=
  Event.lines (frameEvents decl.name (Stmt.blockEvents none n decl.body).1)

/-- Jumps stay in the body of the function. -/
theorem targets_flow (decl : FunctionDecl) (n : LabelCounters) :
    (decl.flow n).targets ⊆ (decl.flow n).labels.tail := by
  have hleaves : LeavesInto (decl.flow n).labels.tail none :=
    ⟨by simp [flow, frameEvents], by simp⟩
  have hlabels : (Event.lines (Stmt.blockEvents none n decl.body).1).labels ⊆
      (decl.flow n).labels.tail := by
    intro l hl
    simp [flow, frameEvents, hl]
  have htargets := Stmt.targets_blockEvents decl.body none n hleaves hlabels
  simpa [flow, frameEvents] using htargets

/-- **Labels and jumps of a function.** -/
theorem wellLabelled_of_gives {decl : FunctionDecl} {d : Declarations} {code : Code}
    (hw : decl.wellFormed) (hname : isLocalName decl.name = false) (h : decl.Gives d code) :
    code.WellLabelled ∧ ∃ n, code.filter Line.isControl = decl.flow n := by
  obtain ⟨-, ls, hls, hnodup, hlocal⟩ := labels_of_gives hw h
  obtain ⟨g, g', -, hreturns⟩ := h
  obtain ⟨es, hes, hspells⟩ := spells_of_returns hw hreturns
  have hflow : code.filter Line.isControl = decl.flow g.context.labels := by
    rw [hspells.filter_isControl, flow, hes]
  have hlines : ∀ line ∈ code, (∃ l, line = .label l) ∨ ∃ i, line = .instr i := by
    obtain ⟨_, _, raw, σ, -, -, -, hcode, -, -, -⟩ := emits_of_returns hw hreturns
    have hmarkers : code.markers = [] := by
      rw [hcode]
      simp [frameCode]
    intro line hline
    rcases hspells.line_cases line hline with hlabel | hinstr | ⟨m, rfl⟩
    · exact .inl hlabel
    · exact .inr hinstr
    · have hmem : m ∈ code.markers := List.mem_filterMap.2 ⟨_, hline, rfl⟩
      rw [hmarkers] at hmem
      cases hmem
  refine ⟨⟨hlines, ?_, fun line hline l hl => ?_⟩, _, hflow⟩
  · have htext : (Label.named decl.name).text = decl.name := rfl
    have hall : ∀ x ∈ ls.map Label.text, isLocalName x :=
      List.forall_mem_map.2 fun l hl => (hlocal l hl).2
    rw [hls, List.map_cons, htext, List.filter_cons_of_neg (by simp [hname]),
      List.filter_eq_self.2 hall]
    refine (List.nodup_map_iff_inj_on hnodup).2 fun l hl l' hl' heq => ?_
    exact Label.text_injective (hlocal l hl).1 (hlocal l' hl').1 heq
  · have htarget : l ∈ code.targets := List.mem_filterMap.2 ⟨line, hline, hl⟩
    rw [← Code.targets_filter_isControl, hflow] at htarget
    have hmem := decl.targets_flow _ htarget
    rw [← hflow, Code.labels_filter_isControl, hls, List.tail_cons] at hmem
    exact ⟨(hlocal l hmem).2, hls ▸ List.mem_cons_of_mem _ hmem⟩

end FunctionDecl

namespace Generator

/-- **Labels and jumps of a listing.** In the code of every function of a program that compiles, a
label that starts with a point is defined once, and every jump goes to such a label of the same
function. The labels and jumps are, in order, those that `FunctionDecl.flow` reads off the body,
where a `break` or a `continue` is a jump to a label of the innermost loop around it. -/
theorem labels_and_jumps {source : String} {p : Program} {g : Generator} {listing : Listing}
    (hp : Program.ofSource source = .ok p) (h : (g.generate p).1 = .ok listing) :
    List.Forall₂
      (fun decl code => code.WellLabelled ∧ ∃ n, code.filter Line.isControl = decl.flow n)
      (Item.definitions (Declarations.add {} p).1.functions [] p.items) listing.functions := by
  obtain ⟨-, -, hfunctions⟩ := generate_eq_ok h
  have hall := (List.forall₂_and_left _ _).2
    ⟨fun _ => Item.wellFormed_of_mem_definitions hp, hfunctions⟩
  refine hall.imp ?_
  rintro decl code ⟨⟨hw, hname⟩, hgives⟩
  exact FunctionDecl.wellLabelled_of_gives hw hname hgives

/-- A `break` and two `continue` in two loops, of which the inner one is in the outer one. -/
theorem labels_and_jumps_of_loops : ∃ p listing, ∃ code : Code,
    Program.ofSource r"fn f(n: i32) { while (n) { for (; n; n--) { if (n) { break; } continue; }
      continue; } }" = .ok p ∧
    (Generator.generate {} p).1 = .ok listing ∧ listing.functions = [code] ∧
    code.targets = [.whileDone 0, .forDone 0, .ifEnd 0, .forEnd 0, .ifEnd 0, .forStep 0, .forHead 0,
      .whileHead 0, .whileHead 0] ∧
    code.WellLabelled := by
  obtain ⟨p, listing, hp, h, hcheck⟩ := exists_of_someListing
    r"fn f(n: i32) { while (n) { for (; n; n--) { if (n) { break; } continue; }
      continue; } }"
    (fun listing => listing.functions.map Code.targets == [[.whileDone 0, .forDone 0, .ifEnd 0,
      .forEnd 0, .ifEnd 0, .forStep 0, .forHead 0, .whileHead 0, .whileHead 0]])
    (by decide +kernel)
  obtain ⟨code, hcode, htargets⟩ := List.map_eq_singleton_iff.1 (eq_of_beq hcheck)
  obtain ⟨-, hall⟩ := exists_mem_of_forall₂ (labels_and_jumps hp h)
  obtain ⟨_, -, hlabelled, -⟩ := hall code (by simp [hcode])
  exact ⟨p, listing, code, hp, h, hcode, htargets, hlabelled⟩

end Generator

end GLang
