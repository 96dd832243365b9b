import GLang.Proofs.Descriptors
import GLang.Proofs.Duplicates
import GLang.Proofs.WordSizes

/-!
# How structs are laid out

The fields of a struct are placed by the scope that also places the locals of a function, and the
offset of a field is found from where its place ends. What comes out is the layout that one expects,
`Placed`: every field lies at the least multiple of its alignment that is not below the end of the
one before, and the size of the struct is the end of the last one, rounded up to whole dwords.

* `StructDecl.placeFields_cons_eq_ok`: one field.
* `StructDecl.placed_of_placeFields`, `Placed.disjoint`: all fields of a struct.
* `Declarations.exists_layout_of_mem`: where the structs of a program come from.
* `Ty.size_of_mem_parts`: which size a struct has in the types that use it.
* `Program.struct_layout`: all of it, for the structs of a program.
-/

namespace GLang

/-! ### Multiples -/

theorem isLeast_alignUp {align : Nat} (h : 0 < align) (value : Nat) :
    IsLeast {n : Nat | align ∣ n ∧ value ≤ n} (alignUp value align).toNat := by
  have hge := le_alignUp value align
  have hcast : ((alignUp value align).toNat : Int) = alignUp value align :=
    Int.toNat_of_nonneg (by omega)
  refine ⟨⟨?_, by omega⟩, ?_⟩
  · have hdvd := dvd_alignUp (show (0 : Int) < align by omega) value
    rw [← hcast] at hdvd
    exact_mod_cast hdvd
  · rintro n ⟨⟨k, rfl⟩, hle⟩
    have hprod : ((align * k : Nat) : Int) = (k : Int) * align := by
      push_cast
      ring
    have hquotient : ((value : Int) + align - 1) / align < k + 1 := by
      refine Int.ediv_lt_of_lt_mul (by omega) ?_
      rw [Int.add_mul, ← hprod]
      omega
    have hmul : alignUp value align ≤ (k : Int) * align := by
      unfold alignUp
      split
      · obtain rfl : align = 1 := by omega
        omega
      · exact Int.mul_le_mul_of_nonneg_right (by omega) (by omega)
    omega

theorem padToDword_of_dvd {size : Nat} (h : 4 ∣ size) (h' : size ≤ maxFrameSize) :
    padToDword size = size := by
  have hpad := (padToDword_eq h').1
  rw [alignUp, if_neg (by decide)] at hpad
  omega

/-! ### Fields in a row -/

/-- What the place of a field is a multiple of: the width of an integer, and four for all others. -/
def Ty.fieldAlignment : Ty → Nat
  | primitive width _ => width
  | pointer _ | array _ _ | struct _ _ => 4

namespace Field

/-- The first byte after a field. -/
def stop (f : Field) : Nat :=
  f.offset + f.type.alignedSize

/-- The bytes of a field, counted from the start of its struct. -/
def bytes (f : Field) : Set Nat :=
  Set.Ico f.offset f.stop

end Field

/-- Fields from `start` on, each at the least multiple of its alignment that is not below the end of
the one before. The last one ends at `stop`. -/
inductive Placed : Nat → List Field → Nat → Prop where
  | nil {start} : Placed start [] start
  | cons {start stop field fields}
      (h : IsLeast {n | field.type.fieldAlignment ∣ n ∧ start ≤ n} field.offset)
      (hrest : Placed field.stop fields stop) : Placed start (field :: fields) stop

namespace Placed

variable {start stop : Nat} {fields : List Field}

theorem le_offset (h : Placed start fields stop) : ∀ field ∈ fields, start ≤ field.offset := by
  induction h with
  | nil => exact fun _ hf => absurd hf List.not_mem_nil
  | @cons start stop field fields h _ ih =>
    refine List.forall_mem_cons.2 ⟨h.1.2, fun f hf => ?_⟩
    exact h.1.2.trans ((Nat.le_add_right _ _).trans (ih f hf))

theorem disjoint (h : Placed start fields stop) :
    fields.Pairwise fun f g => Disjoint f.bytes g.bytes := by
  induction h with
  | nil => exact .nil
  | @cons start stop field fields _ hrest ih =>
    refine List.pairwise_cons.2 ⟨fun f hf => ?_, ih⟩
    rw [Set.disjoint_left]
    intro n hn hn'
    exact absurd (hrest.le_offset f hf) (Nat.not_le.2 (hn'.1.trans_lt hn.2))

end Placed

namespace Ty

theorem fieldAlignment_of_ofDescriptor {structs : StructTable} {descriptor : String} {t : Ty}
    (h : ofDescriptor structs descriptor = .ok t) : t.alignment = t.fieldAlignment := by
  cases t with
  | pointer | array | struct => rfl
  | primitive width signed =>
    refine alignment_primitive ?_
    simp only [ofDescriptor, ofChars] at h
    split at h
    · cases h
    · obtain ⟨_, -, h⟩ := except_bind_eq_ok.1 h
      cases h
    · split at h
      · cases h
      · split at h
        · cases h
        · obtain ⟨element, -, h⟩ := except_bind_eq_ok.1 h
          unfold arrayOf at h
          split at h <;> cases h
    · split at h
      · rename_i hname
        cases h
        obtain ⟨width', signed', heq, hwidth⟩ := hasWidth_of_ofName? hname
        cases heq
        exact hwidth
      · split at h <;> cases h

end Ty

/-! ### The layout of a struct -/

namespace StructDecl

variable {structs : StructTable}

theorem placeFields_cons_eq_ok {s s' : Scope} {binding : Binding} {rest : List Binding}
    {fields : List Field} (hk : s.kind ≠ .parameter)
    (h : placeFields structs s (binding :: rest) = .ok (fields, s')) :
    ∃ t stop more, Ty.ofDescriptor structs binding.type = .ok t ∧
      binding.name ∉ s.symbols.map Symbol.name ∧ Scope.place? s.cursor t = some stop ∧
      placeFields structs (s.add ⟨binding.name, t, stop⟩ stop) rest = .ok (more, s') ∧
      fields = ⟨binding.name, t, (stop - t.alignedSize).toNat⟩ :: more := by
  obtain ⟨t, ht, h⟩ := except_bind_eq_ok.1 h
  obtain ⟨⟨symbol, s₁⟩, ha, h⟩ := except_bind_eq_ok.1 h
  obtain ⟨⟨more, s₂⟩, hp, h⟩ := except_bind_eq_ok.1 h
  cases h
  obtain ⟨hnew, hplace, hsymbol, rfl⟩ := Scope.place?_of_allocate hk ha
  exact ⟨t, symbol.offset, more, ht, hnew, hplace, hsymbol ▸ hp, rfl⟩

theorem declared_of_placeFields {bindings : List Binding} :
    ∀ {s s' : Scope} {fields : List Field}, placeFields structs s bindings = .ok (fields, s') →
      s.kind ≠ .parameter →
      List.Forall₂ (fun field binding => field.name = binding.name ∧
        Ty.ofDescriptor structs binding.type = .ok field.type) fields bindings := by
  induction bindings with
  | nil =>
    intro s s' fields h _
    cases h
    exact .nil
  | cons binding rest ih =>
    intro s s' fields h hk
    obtain ⟨t, stop, more, ht, -, -, hp, rfl⟩ := placeFields_cons_eq_ok hk h
    exact .cons ⟨rfl, ht⟩ (ih hp hk)

theorem nodup_of_placeFields {bindings : List Binding} :
    ∀ {s s' : Scope} {fields : List Field}, placeFields structs s bindings = .ok (fields, s') →
      s.kind ≠ .parameter → (s.symbols.map Symbol.name).Nodup →
      (s.symbols.map Symbol.name ++ fields.map Field.name).Nodup := by
  induction bindings with
  | nil =>
    intro s s' fields h _ hnodup
    cases h
    simpa using hnodup
  | cons binding rest ih =>
    intro s s' fields h hk hnodup
    obtain ⟨t, stop, more, -, hnew, -, hp, rfl⟩ := placeFields_cons_eq_ok hk h
    have hmore := ih hp hk (by simpa [Scope.add, List.nodup_append', hnodup] using hnew)
    simpa [Scope.add] using hmore

/-- **The fields lie in a row,** from the cursor of the scope on. -/
theorem placed_of_placeFields {bindings : List Binding} :
    ∀ (start : Nat) {s s' : Scope} {fields : List Field},
      placeFields structs s bindings = .ok (fields, s') → s.kind ≠ .parameter → s.cursor = start →
      ∃ stop : Nat, Placed start fields stop ∧
        s'.kind = s.kind ∧ s'.start = s.start ∧ s'.cursor = stop := by
  induction bindings with
  | nil =>
    intro start s s' fields h _ hc
    cases h
    exact ⟨start, .nil, rfl, rfl, hc⟩
  | cons binding rest ih =>
    intro start s s' fields h hk hc
    obtain ⟨t, stop, more, ht, -, hplace, hp, rfl⟩ := placeFields_cons_eq_ok hk h
    obtain ⟨hstop, -⟩ := Scope.place?_eq_some.1 hplace
    rw [hc] at hstop
    have hge := le_alignUp start t.alignment
    -- The scope remembers where a place ends; the field starts its own size before that.
    have hoffset : (stop - t.alignedSize).toNat = (alignUp start t.alignment).toNat := by omega
    have hend : stop = ((stop - t.alignedSize).toNat + t.alignedSize : Nat) := by omega
    obtain ⟨last, hplaced, hs'⟩ := ih _ hp hk hend
    refine ⟨last, .cons ?_ hplaced, hs'⟩
    rw [hoffset, ← Ty.fieldAlignment_of_ofDescriptor ht]
    exact isLeast_alignUp t.alignment_pos start

theorem localSize_complete {s : Scope} {stop : Nat} (hk : s.kind ≠ .parameter)
    (hstart : s.start = 0) (hc : s.cursor = stop) :
    s.complete.localSize = (alignUp stop 4).toNat := by
  by_cases hpos : s.start < s.cursor
  · rw [Scope.complete, if_pos ⟨hk, hpos⟩, Scope.localSize, if_neg hk, hstart, hc]
    simp
  · rw [Scope.complete, if_neg (fun h => hpos h.2), Scope.localSize, if_neg hk]
    obtain rfl : stop = 0 := by omega
    rw [hstart, hc]
    rfl

/-- **The layout of a struct.** -/
theorem placed_of_layout {decl : StructDecl} {s : StructSignature}
    (h : decl.layout structs = .ok s) : s.name = decl.name ∧
      List.Forall₂ (fun field binding => field.name = binding.name ∧
        Ty.ofDescriptor structs binding.type = .ok field.type) s.fields decl.fields ∧
      (s.fields.map Field.name).Nodup ∧
      ∃ stop, Placed 0 s.fields stop ∧ IsLeast {n | 4 ∣ n ∧ stop ≤ n} s.size := by
  obtain ⟨⟨fields, scope⟩, hp, h⟩ := except_bind_eq_ok.1 h
  cases h
  have hk : (Scope.empty 0 .struct 0).kind ≠ .parameter := by decide
  obtain ⟨stop, hplaced, hkind, hstart, hc⟩ := placed_of_placeFields 0 hp hk rfl
  have hsize := localSize_complete (hkind ▸ hk) hstart hc
  refine ⟨rfl, declared_of_placeFields hp hk, nodup_of_placeFields hp hk List.nodup_nil, stop,
    hplaced, ?_⟩
  simp only [hsize]
  exact isLeast_alignUp (by decide) stop

end StructDecl

/-! ### The structs of a program -/

namespace Declarations

/-- **Where structs come from:** the first declaration of a name that can be laid out. -/
theorem exists_layout_of_mem (items : List Item) : ∀ {structs : StructTable} {s : StructSignature},
    s ∈ (addStructs structs items).1.entries → s ∈ structs.entries ∨
      ∃ before decl after, items = before ++ Item.struct decl :: after ∧
        (addStructs structs before).1.contains decl.name = false ∧
        decl.layout (addStructs structs before).1 = .ok s := by
  induction items with
  | nil => exact fun hs => .inl hs
  | cons item items ih =>
    intro structs s hs
    -- A later item is laid out with the table that this item leaves.
    have hlater : ∀ {structs' : StructTable}, (∀ before, (addStructs structs (item :: before)).1 =
        (addStructs structs' before).1) → s ∈ (addStructs structs' items).1.entries →
        s ∈ structs'.entries ∨ ∃ before decl after,
          item :: items = before ++ Item.struct decl :: after ∧
          (addStructs structs before).1.contains decl.name = false ∧
          decl.layout (addStructs structs before).1 = .ok s := by
      intro structs' hsame hs'
      refine (ih hs').imp_right ?_
      rintro ⟨before, decl, after, rfl, hnew, hlayout⟩
      exact ⟨item :: before, decl, after,
        rfl, by rw [hsame]; exact hnew, by rw [hsame]; exact hlayout⟩
    cases item with
    | function | external => exact hlater (fun before => rfl) hs
    | struct decl =>
      cases hcontains : structs.contains decl.name with
      | true =>
        rw [addStructs, if_pos hcontains] at hs
        exact hlater (fun before => by rw [addStructs, if_pos hcontains]) hs
      | false =>
        rw [addStructs, if_neg (by simp [hcontains])] at hs
        cases hlayout : decl.layout structs with
        | error e =>
          rw [hlayout] at hs
          refine hlater (fun before => ?_) hs
          rw [addStructs, if_neg (by simp [hcontains]), hlayout]
        | ok first =>
          rw [hlayout] at hs
          have hstep : ∀ before, (addStructs structs (.struct decl :: before)).1 =
              (addStructs (structs.insert first) before).1 := by
            intro before
            rw [addStructs, if_neg (by simp [hcontains]), hlayout]
          have hname : first.name = decl.name := (StructDecl.known_of_layout hlayout).1
          rcases hlater hstep hs with hmem | hexists
          · rw [StructTable.insert, if_neg (by simp [hname, hcontains]), List.mem_append,
              List.mem_singleton] at hmem
            refine hmem.imp_right ?_
            rintro rfl
            exact ⟨[], decl, items, rfl, hcontains, hlayout⟩
          · exact .inr hexists

theorem get?_of_layout {before : List Item} {decl : StructDecl} {s : StructSignature}
    (hnew : (addStructs {} before).1.contains decl.name = false)
    (hlayout : decl.layout (addStructs {} before).1 = .ok s) (more : List Item) :
    (addStructs {} (before ++ Item.struct decl :: more)).1.get? s.name = some s := by
  have hname : s.name = decl.name := (StructDecl.known_of_layout hlayout).1
  have hstep : (addStructs {} (before ++ Item.struct decl :: more)).1 =
      (addStructs ((addStructs {} before).1.insert s) more).1 := by
    rw [addStructs_append]
    simp only [addStructs]
    rw [if_neg (by simp [hnew]), hlayout]
  rw [hstep]
  refine extends_addStructs more _ s.name s ?_
  rw [← hname] at hnew
  have hfind : (addStructs {} before).1.get? s.name = none := by
    simpa [StructTable.contains] using hnew
  rw [StructTable.insert, if_neg (by simp [hnew]), StructTable.get?, List.find?_append]
  rw [StructTable.get?] at hfind
  rw [hfind]
  simp

end Declarations

/-! ### Types that use a struct -/

namespace Ty

/-- A text that is read as a base, with no blanks around it and no suffix. -/
def IsBase (name : String) : Prop :=
  Text.trim name.toList = name.toList ∧ ∃ c, name.toList.getLast? = some c ∧ c ≠ '*' ∧ c ≠ ')'

/-- The names of the integers, which are no names of structs. -/
def primitiveNames : List String :=
  ["i8", "i16", "i32", "u8", "u16", "u32"]

theorem ofName?_eq_none_iff {name : String} :
    ofName? name.toList = none ↔ name ∉ primitiveNames := by
  constructor
  · intro h hmem
    simp only [primitiveNames, List.mem_cons, List.not_mem_nil, or_false] at hmem
    rcases hmem with rfl | rfl | rfl | rfl | rfl | rfl <;> cases h
  · intro h
    refine Option.eq_none_iff_forall_ne_some.2 fun t ht => h ?_
    obtain ⟨width, signed, rfl, hwidth⟩ := hasWidth_of_ofName? ht
    rw [← String.toList_injective (toList_text_of_ofName? ht)]
    rcases hwidth with rfl | rfl | rfl <;> cases signed <;> decide

theorem isBase_of_isLexical {name : String} (h : (Token.name name).IsLexical) : IsBase name := by
  obtain ⟨c, cs, hname, hc, hcs, -⟩ := h
  have hword : ∀ d ∈ name.toList, Lexer.IsWordCode d.toNat := by
    rw [hname]
    refine List.forall_mem_cons.2 ⟨.inr (Lexer.toNat_of_startsName hc), fun d hd => ?_⟩
    have hd := hcs d hd
    simp only [Lexer.continuesName, Char.isAlphanum, Bool.or_eq_true] at hd
    rcases hd with (halpha | hdigit) | hunderscore
    · exact .inr (Lexer.toNat_of_startsName (by simp [Lexer.startsName, halpha]))
    · exact .inl (Lexer.toNat_of_isDigit hdigit)
    · exact .inr (Lexer.toNat_of_startsName (by simp [Lexer.startsName, hunderscore]))
  refine ⟨Text.trim_eq_self fun d hd => (hword d hd).not_isBlank, ?_⟩
  have hne : name.toList ≠ [] := by simp [hname]
  refine ⟨name.toList.getLast hne, List.getLast?_eq_some_getLast hne, ?_⟩
  have hlast := hword _ (List.getLast_mem hne)
  exact ⟨hlast.ne (by unfold Lexer.IsWordCode; decide),
    hlast.ne (by unfold Lexer.IsWordCode; decide)⟩

variable {structs : StructTable}

/-- **When the name of a struct names it.** -/
theorem ofDescriptor_name_iff {s : StructSignature} (hs : structs.get? s.name = some s) :
    ofDescriptor structs s.name = .ok (.struct s.name s.size) ↔
      IsBase s.name ∧ s.name ∉ primitiveNames := by
  rw [← ofName?_eq_none_iff]
  constructor
  · intro h
    simp only [ofDescriptor, ofChars] at h
    split at h
    · cases h
    · obtain ⟨_, -, h⟩ := except_bind_eq_ok.1 h
      cases h
    · split at h
      · cases h
      · split at h
        · cases h
        · obtain ⟨element, -, h⟩ := except_bind_eq_ok.1 h
          unfold arrayOf at h
          split at h <;> cases h
    · rename_i c hstar hparen hlast
      split at h
      · rename_i hname
        cases h
        obtain ⟨_, _, heq, -⟩ := hasWidth_of_ofName? hname
        cases heq
      · rename_i hname
        split at h
        · rename_i found hfound
          have hfound' : found.name = String.ofList (Text.trim s.name.toList) := by
            simpa using List.find?_some hfound
          have hsame : found.name = s.name := (Ty.struct.inj (Except.ok.inj h)).1
          have htrim : Text.trim s.name.toList = s.name.toList := by
            rw [← hsame, hfound', String.toList_ofList, Text.trim_trim]
          rw [htrim] at hlast hname
          exact ⟨⟨htrim, c, hlast, fun hc => hstar (hc ▸ rfl), fun hc => hparen (hc ▸ rfl)⟩, hname⟩
        · cases h
  · rintro ⟨⟨htrim, c, hlast, hstar, hparen⟩, hname⟩
    simp only [ofDescriptor, ofChars, htrim, hlast, hname, String.ofList_toList, hs]

theorem element_mem_parts {t element : Ty} {count : Nat} (h : Ty.array element count ∈ t.parts) :
    element ∈ t.parts := by
  induction t with
  | primitive | struct => simp [parts] at h
  | pointer pointee ih => exact List.mem_cons_of_mem _ (ih (by simpa [parts] using h))
  | array e n ih =>
    rcases List.mem_cons.1 h with heq | h
    · cases heq
      exact List.mem_cons_of_mem _ element.mem_parts
    · exact List.mem_cons_of_mem _ (ih h)

theorem size_of_mem_parts : ∀ (bound : Nat) {cs : List Char} {t : Ty},
    ofChars structs bound cs = .ok t → ∀ {name : String} {size : Nat},
      Ty.struct name size ∈ t.parts → ∃ s, structs.get? name = some s ∧ s.size = size := by
  intro bound
  induction bound with
  | zero =>
    intro cs t h
    cases h
  | succ bound ih =>
    intro cs t h name size hmem
    simp only [ofChars] at h
    split at h
    · cases h
    · obtain ⟨pointee, hpointee, h⟩ := except_bind_eq_ok.1 h
      cases h
      exact ih hpointee (by simpa [parts] using hmem)
    · split at h
      · cases h
      · split at h
        · cases h
        · obtain ⟨element, helement, h⟩ := except_bind_eq_ok.1 h
          unfold arrayOf at h
          split at h
          · cases h
            exact ih helement (by simpa [parts] using hmem)
          · cases h
    · split at h
      · rename_i hname
        cases h
        obtain ⟨_, _, rfl, -⟩ := hasWidth_of_ofName? hname
        simp [parts] at hmem
      · split at h
        · rename_i found hfound
          cases h
          have hname : found.name = String.ofList (Text.trim cs) := by
            simpa using List.find?_some hfound
          obtain ⟨rfl, rfl⟩ : name = found.name ∧ size = found.size := by simpa [parts] using hmem
          exact ⟨found, hname ▸ hfound, rfl⟩
        · cases h

end Ty

/-- **The structs of a program.** A struct has the fields of its declaration, in order and with
distinct names. They lie in a row from the start of the struct on, each at the least multiple of its
alignment, so that they have no bytes in common; and the size of the struct is the end of the last
field, rounded up to whole dwords. Whatever follows in the program, the name of the struct names a
type of this size, unless it is the name of an integer; a type with that struct in it has it with
this size, and an array of it takes this size for each element. -/
theorem Program.struct_layout (p : Program) (s : StructSignature)
    (h : s ∈ (Declarations.add {} p).1.structs.entries) :
    ∃ before decl after, p.items = before ++ Item.struct decl :: after ∧ decl.name = s.name ∧
      List.Forall₂ (fun field binding => field.name = binding.name ∧
        Ty.ofDescriptor (Declarations.addStructs {} before).1 binding.type = .ok field.type)
        s.fields decl.fields ∧
      (s.fields.map Field.name).Nodup ∧
      (∃ stop, Placed 0 s.fields stop ∧ IsLeast {n | 4 ∣ n ∧ stop ≤ n} s.size) ∧
      (s.fields = [] → s.size = 0) ∧
      s.fields.Pairwise (fun f g => Disjoint f.bytes g.bytes) ∧
      ((Token.name s.name).IsLexical → Ty.IsBase s.name) ∧
      ∀ more, let later := (Declarations.addStructs {} (before ++ Item.struct decl :: more)).1
        (Ty.ofDescriptor later s.name = .ok (.struct s.name s.size) ↔
          Ty.IsBase s.name ∧ s.name ∉ Ty.primitiveNames) ∧
        ∀ descriptor t, Ty.ofDescriptor later descriptor = .ok t →
          (∀ size, Ty.struct s.name size ∈ t.parts →
            size = s.size ∧ (Ty.struct s.name size).alignedSize = s.size) ∧
          ∀ size count, Ty.array (.struct s.name size) count ∈ t.parts →
            (Ty.array (.struct s.name size) count).alignedSize = s.size * count := by
  obtain hnone | ⟨before, decl, after, hitems, hnew, hlayout⟩ :=
    Declarations.exists_layout_of_mem p.items h
  · exact absurd hnone List.not_mem_nil
  obtain ⟨hname, hdeclared, hnodup, stop, hplaced, hsize⟩ := StructDecl.placed_of_layout hlayout
  have hmax : s.size ≤ maxFrameSize := StructDecl.size_le_of_layout hlayout
  have hpad : padToDword s.size = s.size := padToDword_of_dvd hsize.1.1 hmax
  refine ⟨before, decl, after, hitems, hname.symm, hdeclared, hnodup, ⟨stop, hplaced, hsize⟩, ?_,
    hplaced.disjoint, Ty.isBase_of_isLexical, fun more => ?_⟩
  · intro hnil
    rw [hnil] at hplaced
    cases hplaced
    exact Nat.le_zero.1 (hsize.2 ⟨dvd_zero 4, Nat.le_refl 0⟩)
  · intro later
    have hget := Declarations.get?_of_layout hnew hlayout more
    have hbounded : later.Bounded :=
      StructTable.bounded_addStructs _ (by simp [StructTable.Bounded])
    refine ⟨Ty.ofDescriptor_name_iff hget, fun descriptor t ht => ?_⟩
    have hstruct : ∀ size, Ty.struct s.name size ∈ t.parts → size = s.size := by
      intro size hmem
      obtain ⟨found, hfound, rfl⟩ := Ty.size_of_mem_parts _ ht hmem
      rw [Option.some.inj (hfound.symm.trans hget)]
    refine ⟨fun size hmem => ?_, fun size count hmem => ?_⟩
    · obtain rfl := hstruct size hmem
      exact ⟨rfl, hpad⟩
    · obtain rfl := hstruct size (Ty.element_mem_parts hmem)
      have hexact := Ty.exact_of_ofDescriptor hbounded ht _ hmem
      have hle := hexact.ideal_le.trans hexact.le_max
      simp only [Ty.idealSize, Ty.alignedSize, hpad] at hle ⊢
      exact padToDword_of_dvd (dvd_mul_of_dvd_left hsize.1.1 count) hle

/-- A struct with padding before a field, with an array of another struct, and with padding at its
end; an array of it takes thirty-two bytes for each element. -/
theorem Program.struct_layout_of_row : ∃ (p : Program) (s : StructSignature),
    s ∈ (Declarations.add {} p).1.structs.entries ∧ s.name = "Row" ∧ s.size = 32 ∧
    s.fields.map Field.offset = [0, 2, 4, 28] ∧ (∃ stop, Placed 0 s.fields stop) ∧
    Ty.ofDescriptor (Declarations.add {} p).1.structs "Row" = .ok (.struct "Row" 32) ∧
    (Ty.array (.struct "Row" 32) 5).alignedSize = 32 * 5 := by
  let p : Program := ⟨[
    .struct ⟨"Pair", [⟨"tag", "u8"⟩, ⟨"value", "i32"⟩]⟩,
    .struct ⟨"Row", [⟨"mark", "u8"⟩, ⟨"length", "u16"⟩, ⟨"cells", "Pair(3)"⟩, ⟨"last", "u8"⟩]⟩]⟩
  let s : StructSignature := ⟨"Row", [⟨"mark", .byte, 0⟩, ⟨"length", .primitive 2 false, 2⟩,
    ⟨"cells", .array (.struct "Pair" 8) 3, 4⟩, ⟨"last", .byte, 28⟩], 32⟩
  have hs : s ∈ (Declarations.add {} p).1.structs.entries := by decide +kernel
  have ht : Ty.ofDescriptor (Declarations.add {} p).1.structs "Row(5)*" =
      .ok (.pointer (.array (.struct "Row" 32) 5)) := by decide +kernel
  obtain ⟨before, decl, after, hitems, -, -, -, ⟨stop, hplaced, -⟩, -, -, hbase, hlater⟩ :=
    struct_layout p s hs
  have hlexical : (Token.name s.name).IsLexical :=
    ⟨'R', ['o', 'w'], by decide, by decide, List.all_eq_true.1 (by decide), by decide⟩
  obtain ⟨hname, huses⟩ := hlater after
  rw [← hitems] at hname huses
  exact ⟨p, s, hs, rfl, rfl, rfl, ⟨stop, hplaced⟩, hname.2 ⟨hbase hlexical, by decide⟩,
    (huses _ _ ht).2 32 5 (by decide)⟩

/-- A struct that is named like an integer: its name goes on naming the integer. -/
theorem Program.struct_named_like_integer :
    let p : Program := ⟨[.struct ⟨"u8", [⟨"a", "i32"⟩, ⟨"b", "i32"⟩]⟩]⟩
    let structs := (Declarations.add {} p).1.structs
    Program.ofSource "struct u8 { a: i32; b: i32; }" = .ok p ∧
    (∃ s ∈ structs.entries, s.name = "u8" ∧ s.size = 8) ∧
    Ty.ofDescriptor structs "u8" = .ok (.primitive 1 false) ∧
    (Ty.primitive 1 false).alignedSize = 1 :=
  ⟨by cbv, by decide +kernel, by decide +kernel, rfl⟩

end GLang
