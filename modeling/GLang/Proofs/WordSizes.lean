import GLang.Proofs.LiveScopes

/-!
# Sizes fit in words

Sizes and places are computed in words of 32 bits, signed or not. Here the same computations are
done step by step, and one whose result is no word stops everything: `alignUp?`, `Ty.alignedSize?`,
`Scope.allocate?`, `Scope.complete?`, `Scope.localSize?`, `StructDecl.layout?`. That none of them
stops needs a bound that goes around in a circle: the table of structs bounds the types, types bound
what is placed in a scope, and a scope of fields gives the next struct of the table.

* `Ty.Exact`: what holds of the sizes of a type, and that words are enough to compute them,
* `StructTable.Bounded`, `Ty.exact_of_ofDescriptor`: from the structs to the types,
* `Scope.Bounded`, `Scope.Bounded.allocate?_eq`: from the types to the scopes,
* `StructDecl.layout?_eq`, `StructTable.bounded_addStructs`: from scopes back to the structs,
* `Program.sizes_exact`: all of it, for the structs of a program.
-/

namespace GLang

/-! ### Words -/

/-- `n`, if it is a signed word. -/
def signedWord? (n : Int) : Option Int :=
  if -0x80000000 ≤ n ∧ n < 0x80000000 then some n else none

/-- `n`, if it is an unsigned word. -/
def unsignedWord? (n : Int) : Option Nat :=
  if 0 ≤ n ∧ n < 0x100000000 then some n.toNat else none

theorem signedWord?_eq {n : Int} (h : -0x80000000 ≤ n) (h' : n < 0x80000000) :
    signedWord? n = some n :=
  if_pos ⟨h, h'⟩

theorem unsignedWord?_eq {n : Nat} (h : n < 0x100000000) : unsignedWord? n = some n := by
  rw [unsignedWord?, if_pos (by omega), Int.toNat_natCast]

theorem bind_of_eq_some {α β : Type} {x : Option α} {a : α} (h : x = some a) (f : α → Option β) :
    (x >>= f) = f a := by
  rw [h]
  rfl

theorem bind_of_eq_ok {ε α β : Type} {x : Except ε α} {a : α} (h : x = .ok a)
    (f : α → Except ε β) : (x >>= f) = f a := by
  rw [h]
  rfl

/-- `alignUp` in words. -/
def alignUp? (value align : Int) : Option Int :=
  if align ≤ 1 then some value
  else do
    let beyond ← signedWord? (value + align)
    let last ← signedWord? (beyond - 1)
    let quotient ← signedWord? (last / align)
    signedWord? (quotient * align)

theorem alignUp_le {value bound : Int} (h : value ≤ bound) (hbound : 4 ∣ bound) :
    alignUp value 4 ≤ bound := by
  rw [alignUp, if_neg (by decide)]
  omega

theorem alignUp?_eq {value align : Int} (h : 0 ≤ value) (h' : value ≤ maxFrameSize)
    (halign : align ≤ 4) : alignUp? value align = some (alignUp value align) := by
  have hmax : (maxFrameSize : Int) = 0x40000000 := rfl
  unfold alignUp? alignUp
  split
  · rfl
  · rename_i hpos
    have hquotient : 0 ≤ (value + align - 1) / align := Int.ediv_nonneg (by omega) (by omega)
    have hle : (value + align - 1) / align ≤ value + align - 1 :=
      Int.ediv_le_self _ (by omega)
    have hmul : (value + align - 1) / align * align ≤ value + align - 1 :=
      Int.ediv_mul_le _ (by omega)
    have hnonneg : 0 ≤ (value + align - 1) / align * align := Int.mul_nonneg hquotient (by omega)
    rw [bind_of_eq_some (signedWord?_eq (by omega) (by omega)),
      bind_of_eq_some (signedWord?_eq (by omega) (by omega)),
      bind_of_eq_some (signedWord?_eq (by omega) (by omega))]
    exact signedWord?_eq (by omega) (by omega)

/-! ### Types -/

/-- `padToDword` in words: the size is taken as a signed word, and the result is unsigned. -/
def padToDword? (size : Nat) : Option Nat := do
  let value ← signedWord? size
  let padded ← alignUp? value 4
  unsignedWord? padded

/-- `Ty.alignedSize` in words. -/
def Ty.alignedSize? : Ty → Option Nat
  | primitive width signed => some (primitive width signed).alignedSize
  | pointer _ => some 4
  | array element count => do
    let size ← element.alignedSize?
    let ideal ← unsignedWord? (size * count)
    padToDword? ideal
  | struct _ size => padToDword? size

/-- `Ty.idealSize` in words. -/
def Ty.idealSize? : Ty → Option Nat
  | primitive width _ => some width
  | pointer _ => some 4
  | array element count => do
    let size ← element.alignedSize?
    unsignedWord? (size * count)
  | struct _ size => some size

/-- The type itself, what it points to and what it is an array of, and so on. -/
def Ty.parts : Ty → List Ty
  | primitive width signed => [primitive width signed]
  | pointer pointee => pointer pointee :: pointee.parts
  | array element count => array element count :: element.parts
  | struct name size => [struct name size]

theorem Ty.mem_parts (t : Ty) : t ∈ t.parts := by
  cases t <;> simp [parts]

/-- The sizes of a type are in range, and they are computed in words. -/
structure Ty.Exact (t : Ty) : Prop where
  le_max : t.alignedSize ≤ maxFrameSize
  ideal_le : t.idealSize ≤ t.alignedSize
  primitive : t.isPrimitive → t.alignedSize = 1 ∨ t.alignedSize = 2 ∨ t.alignedSize = 4
  aggregate : t.isPrimitive = false → 4 ∣ t.alignedSize
  ideal_exact : t.idealSize? = some t.idealSize
  aligned_exact : t.alignedSize? = some t.alignedSize

theorem padToDword_eq {size : Nat} (h : size ≤ maxFrameSize) :
    (padToDword size : Int) = alignUp size 4 ∧ padToDword? size = some (padToDword size) := by
  have hmax : maxFrameSize = 0x40000000 := rfl
  have hle : alignUp size 4 ≤ 0x40000000 := alignUp_le (by omega) (by omega)
  have hge := le_alignUp size 4
  have hpad : padToDword size = (alignUp size 4).toNat := by
    rw [padToDword, Int.bmod_eq_of_le (by omega) (by omega),
      Int.emod_eq_of_lt (by omega) (by omega)]
  have hcast : (padToDword size : Int) = alignUp size 4 := by omega
  have hword : unsignedWord? (padToDword size) = some (padToDword size) :=
    unsignedWord?_eq (by omega)
  refine ⟨hcast, ?_⟩
  rw [padToDword?, bind_of_eq_some (signedWord?_eq (by omega) (by omega)),
    bind_of_eq_some (alignUp?_eq (by omega) (by omega) (by decide)), ← hcast, hword]

namespace Ty

theorem exact_primitive {width : Nat} {signed : Bool} (h : (primitive width signed).HasWidth) :
    (primitive width signed).Exact := by
  rcases h with rfl | rfl | rfl
  all_goals exact ⟨by simp [alignedSize, maxFrameSize], Nat.le_refl _, by simp [alignedSize],
    by simp [isPrimitive], rfl, rfl⟩

theorem exact_pointer (pointee : Ty) : (pointer pointee).Exact :=
  ⟨by simp [alignedSize, maxFrameSize], Nat.le_refl _, fun _ => .inr (.inr rfl),
    by simp [isPrimitive], rfl, rfl⟩

theorem exact_struct {name : String} {size : Nat} (h : size ≤ maxFrameSize) :
    (struct name size).Exact := by
  obtain ⟨hpad, hexact⟩ := padToDword_eq h
  have hmax : (maxFrameSize : Int) = 0x40000000 := rfl
  have hle : alignUp size 4 ≤ maxFrameSize := alignUp_le (by omega) (by omega)
  have hge := le_alignUp size 4
  refine ⟨?_, ?_, by simp [isPrimitive], fun _ => four_dvd_padToDword size, rfl, hexact⟩
  · rw [alignedSize]
    omega
  · rw [alignedSize, idealSize]
    omega

/-- An array is as exact as its elements, unless it is larger than any object. -/
theorem exact_array {element : Ty} {count : Nat} (h : element.Exact)
    (hle : element.alignedSize * count ≤ maxFrameSize) : (array element count).Exact := by
  obtain ⟨hpad, hexact⟩ := padToDword_eq hle
  have hmax : maxFrameSize = 0x40000000 := rfl
  have hle' : alignUp ((element.alignedSize * count : Nat) : Int) 4 ≤ maxFrameSize :=
    alignUp_le (by omega) (by omega)
  have hge := le_alignUp ((element.alignedSize * count : Nat) : Int) 4
  have hword :
      unsignedWord? (element.alignedSize * count) = some (element.alignedSize * count) := by
    rw [← Nat.cast_mul]
    exact unsignedWord?_eq (by omega)
  have hideal : (array element count).idealSize? = some (array element count).idealSize := by
    rw [idealSize?, bind_of_eq_some h.aligned_exact, hword, idealSize]
  refine ⟨?_, ?_, by simp [isPrimitive], fun _ => four_dvd_padToDword _, hideal, ?_⟩
  · rw [alignedSize]
    omega
  · rw [alignedSize, idealSize]
    omega
  · rw [alignedSize?, bind_of_eq_some h.aligned_exact, bind_of_eq_some hword, hexact, alignedSize]

end Ty

/-- No struct of the table is larger than any object may be. -/
def StructTable.Bounded (structs : StructTable) : Prop :=
  ∀ s ∈ structs.entries, s.size ≤ maxFrameSize

namespace Ty

theorem hasWidth_of_ofName? {cs : List Char} {t : Ty} (h : ofName? cs = some t) :
    ∃ width signed, t = primitive width signed ∧ (primitive width signed).HasWidth := by
  unfold ofName? at h
  split at h
  all_goals cases h
  all_goals exact ⟨_, _, rfl, by simp [HasWidth]⟩

theorem exact_of_ofChars {structs : StructTable} (hs : structs.Bounded) :
    ∀ (bound : Nat) {cs : List Char} {t : Ty}, ofChars structs bound cs = .ok t →
      ∀ u ∈ t.parts, u.Exact := by
  intro bound
  induction bound with
  | zero =>
    intro cs t h
    cases h
  | succ bound ih =>
    intro cs t h
    simp only [ofChars] at h
    split at h
    · cases h
    · obtain ⟨pointee, hpointee, h⟩ := except_bind_eq_ok.1 h
      cases h
      exact List.forall_mem_cons.2 ⟨exact_pointer pointee, ih hpointee⟩
    · split at h
      · cases h
      · split at h
        · cases h
        · obtain ⟨element, helement, h⟩ := except_bind_eq_ok.1 h
          have hparts := ih helement
          unfold arrayOf at h
          split at h
          · rename_i hle
            cases h
            exact List.forall_mem_cons.2
              ⟨exact_array (hparts element element.mem_parts) hle, hparts⟩
          · cases h
    · split at h
      · rename_i hname
        cases h
        obtain ⟨width, signed, rfl, hwidth⟩ := hasWidth_of_ofName? hname
        exact List.forall_mem_singleton.2 (exact_primitive hwidth)
      · split at h
        · rename_i s hget
          cases h
          exact List.forall_mem_singleton.2 (exact_struct (hs s (List.mem_of_find?_eq_some hget)))
        · cases h

/-- **The types that descriptors name have exact sizes,** and so have all their parts. -/
theorem exact_of_ofDescriptor {structs : StructTable} (hs : structs.Bounded) {descriptor : String}
    {t : Ty} (h : ofDescriptor structs descriptor = .ok t) : ∀ u ∈ t.parts, u.Exact :=
  exact_of_ofChars hs _ h

end Ty

/-! ### Scopes -/

namespace Scope

/-- `Scope.place?` in words. A size or an end that is no signed word is refused as too large;
nothing else may leave its range. -/
def placeWord? (cursor : Int) (t : Ty) : Option (Option Int) := do
  let size ← t.alignedSize?
  match signedWord? size with
  | none => return none
  | some size =>
    let align ← signedWord? (if t.isPrimitive then size else 4)
    let base ← alignUp? cursor align
    return (signedWord? (base + size)).filter (· ≤ maxFrameSize)

/-- `Scope.allocate` in words. -/
def allocate? (s : Scope) (name : String) (t : Ty) :
    Option (Except LoweringError (Symbol × Scope)) :=
  if (s.get? name).isSome then some (.error (.duplicateSymbol name))
  else if s.kind = .parameter then do
    let next ← signedWord? (s.cursor - parameterSlot)
    return .ok (⟨name, t, s.cursor⟩, s.add ⟨name, t, s.cursor⟩ next)
  else do
    match ← placeWord? s.cursor t with
    | none => return .error (.unsupported (.beyondFrame name))
    | some stop => return .ok (⟨name, t, stop⟩, s.add ⟨name, t, stop⟩ stop)

/-- `Scope.complete` in words. -/
def complete? (s : Scope) : Option Scope :=
  if s.kind ≠ .parameter ∧ s.start < s.cursor then do
    let used ← signedWord? (s.cursor - s.start)
    let padded ← alignUp? used 4
    let cursor ← signedWord? (s.start + padded)
    return { s with cursor }
  else some s

/-- `Scope.localSize` in words. -/
def localSize? (s : Scope) : Option Nat :=
  if s.kind = .parameter then some 0
  else do
    let used ← signedWord? (s.cursor - s.start)
    unsignedWord? (max used 0)

/-- The cursor is between the start of the scope and the largest frame. -/
structure Bounded (s : Scope) : Prop where
  start_nonneg : 0 ≤ s.start
  start_le : s.start ≤ s.cursor
  cursor_le : s.cursor ≤ maxFrameSize

namespace Bounded

variable {s : Scope}

theorem empty (id : Nat) (kind : ScopeKind) {start : Int} (h : 0 ≤ start)
    (h' : start ≤ maxFrameSize) :
    (Scope.empty id kind start).Bounded :=
  ⟨h, Int.le_refl _, h'⟩

theorem allocate (h : s.Bounded) (hk : s.kind ≠ .parameter) {s' : Scope} {x : String} {t : Ty}
    {symbol : Symbol} (ha : s.allocate x t = .ok (symbol, s')) :
    s'.Bounded ∧ s'.kind = s.kind ∧ s.cursor + t.alignedSize ≤ symbol.offset ∧
      symbol.offset ≤ maxFrameSize := by
  obtain ⟨-, hp, -, -⟩ := place?_of_allocate hk ha
  obtain ⟨-, -, -, hle, rfl⟩ := allocate_local hk ha
  obtain ⟨-, -, hmax⟩ := place?_eq_some.1 hp
  have hstart := h.start_le
  refine ⟨⟨h.start_nonneg, ?_, hmax⟩, rfl, hle, hmax⟩
  show s.start ≤ symbol.offset
  omega

theorem placeWord?_eq (h : s.Bounded) {t : Ty} (ht : t.Exact) :
    placeWord? s.cursor t = some (place? s.cursor t) := by
  have hmax : maxFrameSize = 0x40000000 := rfl
  have hsize := ht.le_max
  have hnonneg := h.start_nonneg
  have hstart := h.start_le
  have hcursor := h.cursor_le
  have halign : (t.alignment : Int) = if t.isPrimitive then (t.alignedSize : Int) else 4 := by
    unfold Ty.alignment
    split <;> rfl
  have hfour : (t.alignment : Int) ≤ 4 := by
    rw [halign]
    split
    · rename_i hp
      have := ht.primitive hp
      omega
    · exact Int.le_refl _
  have hpos : (0 : Int) ≤ t.alignment := Int.natCast_nonneg _
  have hge := le_alignUp s.cursor t.alignment
  rw [placeWord?, bind_of_eq_some ht.aligned_exact, signedWord?_eq (by omega) (by omega)]
  simp only [← halign]
  rw [bind_of_eq_some (signedWord?_eq (by omega) (by omega)),
    bind_of_eq_some (alignUp?_eq (by omega) (by omega) hfour)]
  refine congrArg some ?_
  simp only [place?]
  -- An end that is no word is beyond the largest frame as well.
  by_cases hstop : alignUp s.cursor t.alignment + t.alignedSize ≤ maxFrameSize
  · rw [signedWord?_eq (by omega) (by omega), if_pos ⟨by omega, hstop⟩]
    simp [Option.filter, hstop]
  · rw [if_neg (by omega)]
    unfold signedWord?
    split <;> simp [Option.filter, hstop]

/-- **A symbol is placed in words.** -/
theorem allocate?_eq (h : s.Bounded) (hk : s.kind ≠ .parameter) {t : Ty} (ht : t.Exact)
    (x : String) : s.allocate? x t = some (s.allocate x t) := by
  unfold allocate? Scope.allocate
  split
  · rfl
  · rw [bind_of_eq_some (h.placeWord?_eq ht)]
    cases place? s.cursor t <;> rfl

theorem complete?_eq (h : s.Bounded) : s.complete? = some s.complete := by
  have hmax : maxFrameSize = 0x40000000 := rfl
  have hnonneg := h.start_nonneg
  have hcursor := h.cursor_le
  unfold complete? complete
  split
  · have hle := le_alignUp (s.cursor - s.start) 4
    have hle' : alignUp (s.cursor - s.start) 4 ≤ maxFrameSize := alignUp_le (by omega) (by omega)
    rw [bind_of_eq_some (signedWord?_eq (by omega) (by omega)),
      bind_of_eq_some (alignUp?_eq (by omega) (by omega) (by decide)),
      bind_of_eq_some (signedWord?_eq (by omega) (by omega))]
    rfl
  · rfl

theorem localSize?_eq {s : Scope} (h : s.start ≤ s.cursor)
    (h' : s.cursor - s.start ≤ maxFrameSize) : s.localSize? = some s.localSize := by
  have hmax : maxFrameSize = 0x40000000 := rfl
  unfold localSize? localSize
  split
  · rfl
  · have hused : max (s.cursor - s.start) 0 = ((s.cursor - s.start).toNat : Int) := by omega
    rw [bind_of_eq_some (signedWord?_eq (by omega) (by omega)), hused]
    exact unsignedWord?_eq (by omega)

theorem complete (h : s.Bounded) (hk : s.kind ≠ .parameter) :
    s.complete.start ≤ s.complete.cursor ∧ s.complete.cursor - s.complete.start ≤ maxFrameSize := by
  have hmax : (maxFrameSize : Int) = 0x40000000 := rfl
  have hnonneg := h.start_nonneg
  have hstart := h.start_le
  have hcursor := h.cursor_le
  by_cases hlt : s.start < s.cursor
  · have hle := le_alignUp (s.cursor - s.start) 4
    have hle' : alignUp (s.cursor - s.start) 4 ≤ maxFrameSize := alignUp_le (by omega) (by omega)
    simp only [Scope.complete, if_pos (And.intro hk hlt)]
    omega
  · simp only [Scope.complete, if_neg (fun hand : s.kind ≠ .parameter ∧ _ => hlt hand.2)]
    omega

theorem localSize_complete_le (h : s.Bounded) (hk : s.kind ≠ .parameter) :
    s.complete.localSize ≤ maxFrameSize := by
  obtain ⟨-, hle⟩ := h.complete hk
  unfold localSize
  split
  · exact Nat.zero_le _
  · omega

end Bounded

end Scope

/-- The scopes of a stack that hold no parameters are bounded. -/
def ScopeStack.Bounded (s : ScopeStack) : Prop :=
  ∀ scope ∈ s.scopes, scope.kind ≠ .parameter → scope.Bounded

namespace ScopeStack

variable {s : ScopeStack}

theorem Bounded.openScope (h : s.Bounded) (kind : ScopeKind) (labels : Option LoopLabels) :
    (s.openScope kind labels).2.Bounded := by
  have hmax : maxFrameSize = 0x40000000 := rfl
  refine List.forall_mem_cons.2 ⟨fun hk => ?_, h⟩
  suffices hstart : 0 ≤ s.startOf kind ∧ s.startOf kind ≤ maxFrameSize from
    ⟨hstart.1, Int.le_refl _, hstart.2⟩
  cases kind with
  | parameter => exact absurd rfl hk
  | function | struct => exact ⟨Int.le_refl _, by simp [startOf, maxFrameSize]⟩
  | branch | forLoop | whileLoop =>
    unfold startOf
    cases hs : s.scopes with
    | nil => exact ⟨Int.le_refl _, by simp [maxFrameSize]⟩
    | cons parent rest =>
      simp only
      split
      · exact ⟨Int.le_refl _, by simp [maxFrameSize]⟩
      · rename_i hparent
        have hbounded := h parent (by simp [hs]) hparent
        exact ⟨Int.le_trans hbounded.start_nonneg hbounded.start_le, hbounded.cursor_le⟩

theorem Bounded.declare (h : s.Bounded) {x : String} {t : Ty} {symbol : Symbol} {s' : ScopeStack}
    (hd : s.declare x t = .ok (symbol, s')) : s'.Bounded := by
  obtain ⟨top, top', rest, hs, ha, rfl⟩ := declare_eq_ok.1 hd
  unfold Bounded at h
  rw [hs] at h
  obtain ⟨htop, hrest⟩ := List.forall_mem_cons.1 h
  refine List.forall_mem_cons.2 ⟨fun hk => ?_, hrest⟩
  have hkind : top'.kind = top.kind := by
    obtain ⟨cursor, -, -, -, rfl⟩ := Scope.allocate_eq_add ha
    rfl
  rw [hkind] at hk
  exact ((htop hk).allocate hk ha).1

theorem Bounded.apply (h : s.Bounded) (op : Op) : (s.apply op).Bounded := by
  cases op with
  | push kind => exact h.openScope kind none
  | pushLoop kind labels => exact h.openScope kind (some labels)
  | declare x t =>
    cases hd : s.declare x t with
    | error e => simpa only [ScopeStack.apply, hd] using h
    | ok r => simpa only [ScopeStack.apply, hd] using h.declare hd
  | pop kind =>
    cases hp : s.pop kind with
    | error e => simpa only [ScopeStack.apply, hp] using h
    | ok r =>
      obtain ⟨top, rest, hs, -, -, hr⟩ := pop_eq_ok.1 hp
      simp only [ScopeStack.apply, hp, hr]
      intro scope hscope
      exact h scope (by rw [hs]; exact List.mem_cons_of_mem top hscope)

/-- **All scopes stay bounded,** whatever is done with them. -/
theorem bounded_run (ops : List Op) : ∀ {s : ScopeStack}, s.Bounded → (s.run ops).Bounded := by
  induction ops with
  | nil => exact id
  | cons op ops ih => exact fun h => ih (h.apply op)

end ScopeStack

/-! ### Structs -/

namespace StructDecl

/-- `StructDecl.placeFields` in words. -/
def placeFields? (structs : StructTable) :
    Scope → List Binding → Option (Except LoweringError (List Field × Scope))
  | s, [] => some (.ok ([], s))
  | s, binding :: rest =>
    match Ty.ofDescriptor structs binding.type with
    | .error e => some (.error e)
    | .ok t => do
      let size ← signedWord? (← t.alignedSize?)
      match ← s.allocate? binding.name t with
      | .error e => return .error e
      | .ok (symbol, s) =>
        let offset ← unsignedWord? (← signedWord? (symbol.offset - size))
        let placed ← placeFields? structs s rest
        return placed.map fun (fields, s) => (⟨binding.name, t, offset⟩ :: fields, s)

/-- `StructDecl.layout` in words. -/
def layout? (structs : StructTable) (decl : StructDecl) :
    Option (Except LoweringError StructSignature) := do
  match ← placeFields? structs (.empty 0 .struct 0) decl.fields with
  | .error e => return .error e
  | .ok (fields, scope) =>
    let scope ← scope.complete?
    let size ← scope.localSize?
    return .ok ⟨decl.name, fields, size⟩

variable {structs : StructTable}

theorem bounded_of_placeFields {bindings : List Binding} :
    ∀ {s s' : Scope} {fields : List Field}, s.Bounded → s.kind ≠ .parameter →
      placeFields structs s bindings = .ok (fields, s') → s'.Bounded ∧ s'.kind = s.kind := by
  induction bindings with
  | nil =>
    intro s s' fields h _ hp
    cases hp
    exact ⟨h, rfl⟩
  | cons binding rest ih =>
    intro s s' fields h hk hp
    obtain ⟨t, -, hp⟩ := except_bind_eq_ok.1 hp
    obtain ⟨⟨symbol, s₁⟩, ha, hp⟩ := except_bind_eq_ok.1 hp
    obtain ⟨⟨fields, s₂⟩, hp, hr⟩ := except_bind_eq_ok.1 hp
    cases hr
    obtain ⟨h₁, hk₁, -⟩ := h.allocate hk ha
    obtain ⟨h₂, hk₂⟩ := ih h₁ (hk₁ ▸ hk) hp
    exact ⟨h₂, hk₂.trans hk₁⟩

theorem placeFields?_eq (hs : structs.Bounded) (bindings : List Binding) :
    ∀ {s : Scope}, s.Bounded → s.kind ≠ .parameter →
      placeFields? structs s bindings = some (placeFields structs s bindings) := by
  have hmax : maxFrameSize = 0x40000000 := rfl
  induction bindings with
  | nil => exact fun _ _ => rfl
  | cons binding rest ih =>
    intro s h hk
    rw [placeFields?, placeFields]
    cases ht : Ty.ofDescriptor structs binding.type with
    | error e => rfl
    | ok t =>
      have hexact := Ty.exact_of_ofDescriptor hs ht t t.mem_parts
      have hsize := hexact.le_max
      simp only
      rw [bind_of_eq_ok rfl, bind_of_eq_some hexact.aligned_exact,
        bind_of_eq_some (signedWord?_eq (by omega) (by omega)),
        bind_of_eq_some (h.allocate?_eq hk hexact _)]
      cases ha : s.allocate binding.name t with
      | error e => rfl
      | ok r =>
        obtain ⟨symbol, s₁⟩ := r
        obtain ⟨h₁, hk₁, hle, hle'⟩ := h.allocate hk ha
        have hnonneg := h.start_nonneg
        have hstart := h.start_le
        have hoffset :
            symbol.offset - t.alignedSize = ((symbol.offset - t.alignedSize).toNat : Int) := by
          omega
        have hword : unsignedWord? (symbol.offset - t.alignedSize) =
            some (symbol.offset - t.alignedSize).toNat := by
          rw [hoffset]
          exact unsignedWord?_eq (by omega)
        simp only
        rw [bind_of_eq_ok rfl, bind_of_eq_some (signedWord?_eq (by omega) (by omega)),
          bind_of_eq_some hword, bind_of_eq_some (ih h₁ (hk₁ ▸ hk))]
        cases placeFields structs s₁ rest <;> rfl

/-- **A struct is laid out in words.** -/
theorem layout?_eq (hs : structs.Bounded) (decl : StructDecl) :
    decl.layout? structs = some (decl.layout structs) := by
  have hempty := Scope.Bounded.empty 0 .struct (Int.le_refl 0) (Int.natCast_nonneg _)
  unfold layout? layout
  rw [bind_of_eq_some (placeFields?_eq hs decl.fields hempty (by decide))]
  cases hp : placeFields structs (.empty 0 .struct 0) decl.fields with
  | error e => rfl
  | ok r =>
    obtain ⟨fields, s⟩ := r
    obtain ⟨h, hk⟩ := bounded_of_placeFields hempty (by decide) hp
    obtain ⟨hstart, hle⟩ := h.complete (by rw [hk]; decide)
    simp only
    rw [bind_of_eq_some h.complete?_eq, bind_of_eq_some (Scope.Bounded.localSize?_eq hstart hle)]
    rfl

theorem size_le_of_layout {decl : StructDecl} {s : StructSignature}
    (h : decl.layout structs = .ok s) : s.size ≤ maxFrameSize := by
  obtain ⟨⟨fields, scope⟩, hp, h⟩ := except_bind_eq_ok.1 h
  cases h
  obtain ⟨hbounded, hk⟩ := bounded_of_placeFields
    (Scope.Bounded.empty 0 .struct (Int.le_refl 0) (Int.natCast_nonneg _)) (by decide) hp
  exact hbounded.localSize_complete_le (by rw [hk]; decide)

end StructDecl

theorem StructTable.Bounded.insert {structs : StructTable} (h : structs.Bounded)
    {s : StructSignature} (hs : s.size ≤ maxFrameSize) : (structs.insert s).Bounded := by
  unfold StructTable.insert
  split
  · exact h
  · exact List.forall_mem_append.2 ⟨h, List.forall_mem_singleton.2 hs⟩

/-- **No struct of a program is too large.** -/
theorem StructTable.bounded_addStructs (items : List Item) :
    ∀ {structs : StructTable}, structs.Bounded →
      (Declarations.addStructs structs items).1.Bounded := by
  induction items with
  | nil => exact id
  | cons item items ih =>
    intro structs h
    cases item with
    | struct decl =>
      rw [Declarations.addStructs]
      split
      · exact ih h
      · split
        · rename_i s hs
          exact ih (h.insert (StructDecl.size_le_of_layout hs))
        · exact ih h
    | function | external => exact ih h

/-- **The sizes of a program are computed in words.** Whatever type a descriptor names with the
structs of the program, its sizes are in range, those of its parts too, and no word overflows on the
way to them. Nor does one when a further struct is laid out, or when a symbol of such a type is
placed in a scope that holds no parameters, however that scope came about, or when the scope is
closed. -/
theorem Program.sizes_exact (p : Program) :
    let structs := (Declarations.add {} p).1.structs
    (∀ descriptor t, Ty.ofDescriptor structs descriptor = .ok t → ∀ u ∈ t.parts, u.Exact) ∧
    (∀ decl : StructDecl, decl.layout? structs = some (decl.layout structs)) ∧
    ∀ ops, ∀ scope ∈ (ScopeStack.run {} ops).scopes, scope.kind ≠ .parameter →
      (∀ x descriptor t, Ty.ofDescriptor structs descriptor = .ok t →
        scope.allocate? x t = some (scope.allocate x t)) ∧
      scope.complete? = some scope.complete ∧
      scope.localSize? = some scope.localSize ∧
      scope.complete.localSize? = some scope.complete.localSize := by
  intro structs
  have hstructs : structs.Bounded :=
    StructTable.bounded_addStructs p.items (by simp [StructTable.Bounded])
  have hexact : ∀ descriptor t, Ty.ofDescriptor structs descriptor = .ok t →
      ∀ u ∈ t.parts, u.Exact :=
    fun _ _ => Ty.exact_of_ofDescriptor hstructs
  refine ⟨hexact, StructDecl.layout?_eq hstructs, fun ops scope hscope hk => ?_⟩
  have hbounded : scope.Bounded :=
    ScopeStack.bounded_run ops (by simp [ScopeStack.Bounded]) scope hscope hk
  have hnonneg := hbounded.start_nonneg
  have hcursor := hbounded.cursor_le
  obtain ⟨hstart, hle⟩ := hbounded.complete hk
  exact ⟨fun x descriptor t ht => hbounded.allocate?_eq hk (hexact descriptor t ht t t.mem_parts) x,
    hbounded.complete?_eq, Scope.Bounded.localSize?_eq hbounded.start_le (by omega),
    Scope.Bounded.localSize?_eq hstart hle⟩

/-- Two structs, of which the second and a byte before it fill the largest frame to its last
byte. -/
theorem Program.sizes_exact_of_nested_structs :
    ∃ (p : Program) (t : Ty) (scope : Scope),
      let structs := (Declarations.add {} p).1.structs
      Ty.ofDescriptor structs "Table(1)" = .ok t ∧ t.alignedSize = 1073741820 ∧
      (∀ u ∈ t.parts, u.Exact) ∧
      scope ∈ (ScopeStack.run {} [.push .function, .declare "tag" .byte, .push .branch]).scopes ∧
      (∃ symbol after, scope.allocate "table" t = .ok (symbol, after) ∧
        symbol.offset = maxFrameSize ∧ scope.allocate? "table" t = some (.ok (symbol, after))) := by
  let p : Program := ⟨[
    .struct ⟨"Pair", [⟨"tag", "u8"⟩, ⟨"value", "i32"⟩]⟩,
    .struct ⟨"Table", [⟨"rows", "Pair(134217727)"⟩, ⟨"rest", "u8(3)"⟩]⟩]⟩
  let t : Ty := .array (.struct "Table" 1073741820) 1
  let scope := Scope.empty 1 .branch 1
  have hscope : scope ∈
      (ScopeStack.run {} [.push .function, .declare "tag" .byte, .push .branch]).scopes := by
    decide +kernel
  have ht : Ty.ofDescriptor (Declarations.add {} p).1.structs "Table(1)" = .ok t := by
    decide +kernel
  obtain ⟨hexact, -, hscopes⟩ := p.sizes_exact
  obtain ⟨hallocate, -⟩ := hscopes _ scope hscope (by decide)
  have hplaced : scope.allocate "table" t =
      .ok (⟨"table", t, maxFrameSize⟩, scope.add ⟨"table", t, maxFrameSize⟩ maxFrameSize) := by
    decide +kernel
  exact ⟨p, t, scope, ht, by decide +kernel, hexact _ _ ht, hscope, _, _, hplaced, rfl,
    (hallocate "table" _ t ht).trans (congrArg some hplaced)⟩

end GLang
