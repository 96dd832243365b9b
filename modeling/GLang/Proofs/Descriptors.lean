import Mathlib.Data.List.DropRight
import GLang.Proofs.Rereading

/-!
# What type descriptors stand for

A descriptor is read from its right end, and blanks around each part are dropped on the way. So a
text with one more suffix stands for the type of the text, with that suffix applied; and the written
form of a type, which holds no blanks, stands for that very type.

* `Ty.resolve?`: the type that a text names, if it names one.
* `Ty.resolve?_pointer`, `Ty.resolve?_array`: one suffix more.
* `Ty.Suffix`: suffixes, and what they make of a type.
* `Ty.resolve?_text`: the written form of a type is its normal descriptor.
-/

namespace GLang

namespace Text

variable {c : Char} {cs : List Char}

theorem trimRight_eq (cs : List Char) : trimRight cs = cs.rdropWhile isBlank := rfl

theorem trim_trimLeft (cs : List Char) : trim (trimLeft cs) = trim cs := by
  simp only [trim, trimLeft, List.dropWhile_idempotent]

theorem length_trimLeft_le (cs : List Char) : (trimLeft cs).length ≤ cs.length :=
  (List.dropWhile_suffix _).length_le

theorem length_trim_le (cs : List Char) : (trim cs).length ≤ cs.length :=
  (List.rdropWhile_prefix _ _).length_le.trans (length_trimLeft_le cs)

theorem trimLeft_append_cons (hc : isBlank c = false) (cs ds : List Char) :
    trimLeft (cs ++ c :: ds) = trimLeft cs ++ c :: ds := by
  simp only [trimLeft, List.dropWhile_append]
  cases cs.dropWhile isBlank with
  | nil => simp [hc]
  | cons d ds => simp

theorem trim_append_singleton (hc : isBlank c = false) (cs : List Char) :
    trim (cs ++ [c]) = trimLeft cs ++ [c] := by
  rw [trim, trimLeft_append_cons hc, trimRight_eq, List.rdropWhile_concat_neg _ _ _ (by simp [hc])]

/-- A text without blanks is left alone. -/
theorem trim_eq_self (h : ∀ c ∈ cs, isBlank c = false) : trim cs = cs := by
  have hleft : trimLeft cs = cs := by
    cases cs with
    | nil => rfl
    | cons d ds => simp [trimLeft, h d (by simp)]
  rw [trim, hleft, trimRight_eq, List.rdropWhile_eq_self_iff]
  intro hne
  simp [h _ (List.getLast_mem hne)]

theorem trim_trim (cs : List Char) : trim (trim cs) = trim cs := by
  have hleft : trimLeft (trim cs) = trim cs := by
    cases htrim : trim cs with
    | nil => rfl
    | cons d ds =>
      -- the text starts where what is left of it after the first cut starts
      obtain ⟨rest, hrest⟩ := List.rdropWhile_prefix isBlank (trimLeft cs)
      have hhead := List.head?_dropWhile_not isBlank cs
      change _ = cs.dropWhile isBlank at hrest
      change (trimLeft cs).rdropWhile isBlank = d :: ds at htrim
      rw [← hrest, htrim] at hhead
      simpa [trimLeft] using hhead
  rw [trim, hleft, trimRight_eq, trim, trimRight_eq, List.rdropWhile_idempotent]

/-! ### Numerals -/

theorem toList_toString_ofNat (n : Nat) : (toString (n : Int)).toList = Nat.toDigits 10 n :=
  Nat.toList_repr

theorem toList_toString_negSucc (n : Nat) :
    (toString (Int.negSucc n)).toList = '-' :: Nat.toDigits 10 (n + 1) := by
  show ("-" ++ Nat.repr (n + 1)).toList = _
  simp [Nat.toList_repr]

theorem isDigit_or_eq_of_mem_toString {n : Int} (h : c ∈ (toString n).toList) :
    c.isDigit ∨ c = '-' := by
  have hdigit : ∀ m, c ∈ Nat.toDigits 10 m → c.isDigit := fun m hc =>
    Nat.isDigit_of_mem_toDigits (by decide) (by decide) hc
  cases n with
  | ofNat n =>
    rw [Int.ofNat_eq_natCast, toList_toString_ofNat] at h
    exact .inl (hdigit n h)
  | negSucc n =>
    rw [toList_toString_negSucc, List.mem_cons] at h
    exact h.symm.imp_left (hdigit _)

theorem trim_toString (n : Int) : trim (toString n).toList = (toString n).toList := by
  refine trim_eq_self fun c hc => ?_
  rcases isDigit_or_eq_of_mem_toString hc with hdigit | rfl
  · exact Lexer.IsWordCode.not_isBlank (.inl (Lexer.toNat_of_isDigit hdigit))
  · rfl

theorem natural?_toDigits (n : Nat) : natural? (Nat.toDigits 10 n) = some n := by
  have hdigits : ∀ d ∈ Nat.toDigits 10 n, d.isDigit := fun d hd =>
    Nat.isDigit_of_mem_toDigits (by decide) (by decide) hd
  have hvalue : value (Nat.toDigits 10 n) = n := Nat.ofDigitChars_ten_toDigits
  simp [natural?, Nat.toDigits_ne_nil, hvalue, List.all_eq_true.2 hdigits]

theorem lt_of_count? {n : Nat} (h : count? cs = some n) : n < 0x100000000 := by
  simpa using (Option.filter_eq_some_iff.1 h).2

theorem count?_of_notMem (h : '+' ∉ cs) : count? cs = (natural? cs).filter (· < 0x100000000) := by
  unfold count?
  split
  · simp at h
  · rfl

/-- **A number is read back from its numeral** if it is a word, and not otherwise. -/
theorem count?_toString (n : Int) :
    count? (toString n).toList = if 0 ≤ n ∧ n < 0x100000000 then some n.toNat else none := by
  rw [count?_of_notMem fun h => by simpa using isDigit_or_eq_of_mem_toString h]
  cases n with
  | ofNat n =>
    rw [Int.ofNat_eq_natCast, toList_toString_ofNat, natural?_toDigits]
    simp [Option.filter]
  | negSucc n =>
    rw [toList_toString_negSucc, if_neg (by omega)]
    rfl

end Text

namespace Ty

variable {structs : StructTable} {cs ds front inside : List Char} {t : Ty}

theorem splitAtLastOpen?_append (h : '(' ∉ inside) :
    splitAtLastOpen? (front ++ '(' :: inside) = some (front, inside) := by
  have hall : ∀ c ∈ inside.reverse, decide (c ≠ '(') = true := fun c hc =>
    decide_eq_true fun he => h (he ▸ List.mem_reverse.1 hc)
  have hback : (front ++ '(' :: inside).reverse = inside.reverse ++ '(' :: front.reverse := by simp
  simp only [splitAtLastOpen?, hback, List.dropWhile_append_of_pos hall,
    List.takeWhile_append_of_pos hall]
  simp

theorem length_lt_of_splitAtLastOpen? (h : splitAtLastOpen? cs = some (front, inside)) :
    front.length < cs.length := by
  simp only [splitAtLastOpen?] at h
  split at h
  · cases h
  · rename_i c rest hdrop
    cases h
    have hle := (List.dropWhile_suffix (· ≠ '(') (l := cs.reverse)).length_le
    rw [hdrop] at hle
    simpa using hle

theorem length_dropLast_lt {c : Char} (h : cs.getLast? = some c) :
    cs.dropLast.length < cs.length := by
  cases cs with
  | nil => cases h
  | cons d ds => simp

/-- Any bound above the length will do. -/
theorem ofChars_eq_of_lt : ∀ (bound bound' : Nat) {cs : List Char}, cs.length < bound →
    cs.length < bound' → ofChars structs bound cs = ofChars structs bound' cs := by
  intro bound
  induction bound with
  | zero =>
    intro _ _ h
    omega
  | succ bound ih =>
    -- A step drops a suffix, so that the text stays shorter than both bounds.
    intro bound' cs h h'
    obtain ⟨bound', rfl⟩ : ∃ b, bound' = b + 1 := ⟨bound' - 1, by omega⟩
    have hle := Text.length_trim_le cs
    simp only [ofChars]
    split
    · rfl
    · rename_i hlast
      have hlen := length_dropLast_lt hlast
      rw [ih bound' (by omega) (by omega)]
    · rename_i hlast
      have hlen := length_dropLast_lt hlast
      split
      · rfl
      · rename_i hsplit
        have hfront := length_lt_of_splitAtLastOpen? hsplit
        rw [ih bound' (by omega) (by omega)]
    · rfl

/-- The type that a text names, if it names one. -/
def resolve? (structs : StructTable) (cs : List Char) : Option Ty :=
  (ofChars structs (cs.length + 1) cs).toOption

theorem resolve?_eq_some {descriptor : String} :
    resolve? structs descriptor.toList = some t ↔ ofDescriptor structs descriptor = .ok t := by
  unfold resolve? ofDescriptor
  rw [String.length_toList]
  cases ofChars structs (descriptor.length + 1) descriptor.toList <;> simp [Except.toOption]

theorem resolve?_eq {bound : Nat} (h : cs.length < bound) :
    resolve? structs cs = (ofChars structs bound cs).toOption := by
  rw [resolve?, ofChars_eq_of_lt _ bound (by omega) h]

/-- Blanks at the ends of a text change the wording of errors only. -/
theorem resolve?_congr (h : Text.trim cs = Text.trim ds) :
    resolve? structs cs = resolve? structs ds := by
  have hcs : cs.length < cs.length + ds.length + 1 := by omega
  have hds : ds.length < cs.length + ds.length + 1 := by omega
  rw [resolve?_eq hcs, resolve?_eq hds]
  simp only [ofChars, h]
  split
  · rfl
  · rfl
  · split
    · rfl
    · split <;> rfl
  · split
    · rfl
    · split <;> rfl

theorem toOption_bind {α β : Type} (x : Except LoweringError α) (f : α → Except LoweringError β) :
    (x >>= f).toOption = x.toOption.bind fun a => (f a).toOption := by
  cases x <;> rfl

/-- Blanks before a text do not matter to what it names. -/
theorem toOption_ofChars_trimLeft {bound : Nat} (h : cs.length < bound) :
    (ofChars structs bound (Text.trimLeft cs)).toOption = resolve? structs cs := by
  rw [← resolve?_congr (Text.trim_trimLeft cs),
    resolve?_eq (Nat.lt_of_le_of_lt (Text.length_trimLeft_le cs) h)]

theorem resolve?_pointer (cs : List Char) :
    resolve? structs (cs ++ ['*']) = (resolve? structs cs).map .pointer := by
  have hlen : cs.length < (cs ++ ['*']).length := by simp
  rw [resolve?]
  simp only [ofChars, Text.trim_append_singleton (c := '*') rfl cs, List.getLast?_concat,
    List.dropLast_concat, toOption_bind, toOption_ofChars_trimLeft hlen]
  cases resolve? structs cs <;> rfl

theorem resolve?_array (cs : List Char) (h : '(' ∉ inside) :
    resolve? structs (cs ++ '(' :: inside ++ [')']) =
      (Text.count? (Text.trim inside)).bind fun count => (resolve? structs cs).bind fun element =>
        if element.alignedSize * count ≤ maxFrameSize then some (.array element count)
        else none := by
  have htrim : Text.trim (cs ++ '(' :: inside ++ [')']) =
      Text.trimLeft cs ++ '(' :: inside ++ [')'] := by
    rw [Text.trim_append_singleton rfl, Text.trimLeft_append_cons rfl]
  have hlen : cs.length < (cs ++ '(' :: inside ++ [')']).length := by simp
  rw [resolve?]
  simp only [ofChars, htrim, List.getLast?_concat, List.dropLast_concat, splitAtLastOpen?_append h]
  cases Text.count? (Text.trim inside) with
  | none => rfl
  | some count =>
    simp only [toOption_bind, toOption_ofChars_trimLeft hlen, Option.bind_some]
    congr 1
    funext element
    unfold arrayOf
    split <;> rfl

theorem toList_text_of_ofName? (h : ofName? cs = some t) : t.text.toList = cs := by
  unfold ofName? at h
  split at h
  all_goals cases h
  all_goals rfl

/-- `*` makes a pointer of a type, and `(n)` an array of `n` elements. The number may be any that is
written in a source. -/
inductive Suffix where
  | pointer
  | array (count : Int)
  deriving DecidableEq, Repr

namespace Suffix

def text : Suffix → String
  | pointer => "*"
  | array count => s!"({count})"

/-- What a suffix makes of a type. -/
def on (t : Ty) : Suffix → Ty
  | pointer => .pointer t
  | array count => .array t count.toNat

/-- Whether a suffix may follow a type: the count is a word, and the array is not too large. -/
def Fits (t : Ty) : Suffix → Prop
  | pointer => True
  | array count => 0 ≤ count ∧ count < 0x100000000 ∧ t.alignedSize * count.toNat ≤ maxFrameSize

end Suffix

/-- **One suffix more.** -/
theorem resolve?_suffix (suffix : Suffix) :
    resolve? structs (cs ++ suffix.text.toList) = some t ↔
      ∃ u, resolve? structs cs = some u ∧ suffix.Fits u ∧ suffix.on u = t := by
  cases suffix with
  | pointer => simp [Suffix.text, Suffix.Fits, Suffix.on, resolve?_pointer]
  | array count =>
    have hopen : '(' ∉ (toString count).toList := fun h => by
      simpa using Text.isDigit_or_eq_of_mem_toString h
    have htext : cs ++ (Suffix.array count).text.toList =
        cs ++ '(' :: (toString count).toList ++ [')'] := by
      rw [Suffix.text, Expr.toList_array]
      simp
    rw [htext, resolve?_array cs hopen, Text.trim_toString, Text.count?_toString]
    by_cases hcount : 0 ≤ count ∧ count < 0x100000000
    · simp [Option.bind_eq_some_iff, Suffix.Fits, Suffix.on, hcount]
    · have hno : ∀ u, ¬ (Suffix.array count).Fits u := fun u h => hcount ⟨h.1, h.2.1⟩
      simp [if_neg hcount, hno]

theorem text_on {suffix : Suffix} (h : suffix.Fits t) :
    (suffix.on t).text = t.text ++ suffix.text := by
  cases suffix with
  | pointer => rfl
  | array count =>
    obtain ⟨n, rfl⟩ := Int.eq_ofNat_of_zero_le h.1
    apply String.toList_injective
    rw [String.toList_append, Suffix.text, Expr.toList_array, Text.toList_toString_ofNat]
    simp [Suffix.on, text, Nat.toList_repr]

/-- What a text can name: a type whose written form it is, but for blanks, or what a suffix makes of
the type that a shorter text names. -/
theorem resolve?_cases (h : resolve? structs cs = some t) :
    t.text.toList = Text.trim cs ∨
      ∃ (front : List Char) (u : Ty) (suffix : Suffix), front.length < cs.length ∧
        resolve? structs front = some u ∧ suffix.Fits u ∧ suffix.on u = t := by
  have hle := Text.length_trim_le cs
  simp only [resolve?, ofChars] at h
  split at h
  · cases h
  · rename_i hlast
    have hlen := length_dropLast_lt hlast
    rw [toOption_bind, ← resolve?_eq (by omega)] at h
    obtain ⟨u, hu, ht⟩ := Option.bind_eq_some_iff.1 h
    cases ht
    exact .inr ⟨_, u, .pointer, by omega, hu, trivial, rfl⟩
  · rename_i hlast
    have hlen := length_dropLast_lt hlast
    split at h
    · cases h
    · rename_i front inside hsplit
      have hfront := length_lt_of_splitAtLastOpen? hsplit
      split at h
      · cases h
      · rename_i count hcount
        rw [toOption_bind, ← resolve?_eq (by omega)] at h
        obtain ⟨u, hu, ht⟩ := Option.bind_eq_some_iff.1 h
        have hword := Text.lt_of_count? hcount
        unfold arrayOf at ht
        split at ht
        · rename_i hfit
          cases ht
          exact .inr ⟨front, u, .array count, by omega, hu, ⟨by omega, by omega, hfit⟩, rfl⟩
        · cases ht
  · split at h
    · rename_i hname
      cases h
      exact .inl (toList_text_of_ofName? hname)
    · split at h
      · rename_i s hget
        cases h
        have hs : s.name = String.ofList (Text.trim cs) := by
          simpa using List.find?_some hget
        exact .inl (by simp [text, hs])
      · cases h

/-- **The written form of a type is its normal descriptor:** it names that type whenever some text
does. -/
theorem resolve?_text (h : resolve? structs cs = some t) :
    resolve? structs t.text.toList = some t := by
  induction hn : cs.length using Nat.strong_induction_on generalizing cs t with
  | h n ih =>
    subst hn
    rcases resolve?_cases h with htext | ⟨front, u, suffix, hlt, hu, hfits, rfl⟩
    · rw [htext, resolve?_congr (Text.trim_trim cs), h]
    · rw [text_on hfits, String.toList_append]
      exact (resolve?_suffix suffix).2 ⟨u, ih _ hlt hu rfl, hfits, rfl⟩

/-- Each suffix of a list fits the type that those before it make. -/
def Suffix.AllFit (t : Ty) (suffixes : List Suffix) : Prop :=
  ∀ before suffix after, suffixes = before ++ suffix :: after → suffix.Fits (before.foldl on t)

theorem Suffix.allFit_cons {suffix : Suffix} {suffixes : List Suffix} :
    AllFit t (suffix :: suffixes) ↔ suffix.Fits t ∧ AllFit (suffix.on t) suffixes := by
  constructor
  · intro h
    exact ⟨h [] suffix suffixes rfl, fun before s after hs =>
      h (suffix :: before) s after (by rw [hs, List.cons_append])⟩
  · rintro ⟨hfits, hrest⟩ before s after hs
    cases before with
    | nil =>
      cases hs
      exact hfits
    | cons b before =>
      cases hs
      exact hrest before s after rfl

/-- **A list of suffixes** is applied from the left, and each has to fit what stands before it. -/
theorem resolve?_suffixes (suffixes : List Suffix) :
    resolve? structs (cs ++ (String.join (suffixes.map Suffix.text)).toList) = some t ↔
      ∃ u, resolve? structs cs = some u ∧ Suffix.AllFit u suffixes ∧
        suffixes.foldl Suffix.on u = t := by
  induction suffixes generalizing cs with
  | nil => simp [Suffix.AllFit]
  | cons suffix suffixes ih =>
    rw [List.map_cons, String.join_cons, String.toList_append, ← List.append_assoc, ih]
    simp only [resolve?_suffix, Suffix.allFit_cons, List.foldl_cons]
    constructor
    · rintro ⟨_, ⟨u, hu, hfits, rfl⟩, hrest, ht⟩
      exact ⟨u, hu, ⟨hfits, hrest⟩, ht⟩
    · rintro ⟨u, hu, ⟨hfits, hrest⟩, ht⟩
      exact ⟨suffix.on u, ⟨u, hu, hfits, rfl⟩, hrest, ht⟩

end Ty

namespace Parser

open Ty

theorem exists_suffix_of_typeSuffix {c c' : Cursor} {text : String}
    (h : typeSuffix.run c = .ok (text, c')) : ∃ suffix : Suffix, suffix.text = text := by
  unfold typeSuffix at h
  obtain ⟨token, c₁, -, h⟩ := run_bind_eq_ok.1 h
  split at h
  · obtain ⟨_, _, -, h⟩ := run_bind_eq_ok.1 h
    cases h
    exact ⟨.pointer, rfl⟩
  · obtain ⟨_, _, -, h⟩ := run_bind_eq_ok.1 h
    obtain ⟨_, _, -, h⟩ := run_bind_eq_ok.1 h
    split at h
    · rename_i n
      obtain ⟨_, _, -, h⟩ := run_bind_eq_ok.1 h
      obtain ⟨_, _, -, h⟩ := run_bind_eq_ok.1 h
      cases h
      exact ⟨.array n, rfl⟩
    · cases h

theorem exists_suffixes_of_manyWithin {more : Cursor → Bool} {c' : Cursor} {texts : List String}
    (bound : List Spanned) {c : Cursor}
    (h : (manyWithin more typeSuffix bound).run c = .ok (texts, c')) :
    ∃ suffixes : List Suffix, suffixes.map Suffix.text = texts := by
  induction bound generalizing c texts with
  | nil => cases h
  | cons _ bound ih =>
    obtain ⟨c₁, _, -, h⟩ := run_bind_eq_ok.1 h
    split at h
    · obtain ⟨text, _, htext, h⟩ := run_bind_eq_ok.1 h
      obtain ⟨rest, _, hrest, h⟩ := run_bind_eq_ok.1 h
      cases h
      obtain ⟨suffix, rfl⟩ := exists_suffix_of_typeSuffix htext
      obtain ⟨suffixes, rfl⟩ := ih hrest
      exact ⟨suffix :: suffixes, rfl⟩
    · cases h
      exact ⟨[], rfl⟩

theorem current_of_ident {role : NameRole} {c c' : Cursor} {x : String}
    (h : (ident role).run c = .ok (x, c')) : c.current = .name x := by
  unfold ident at h
  obtain ⟨token, c₁, htoken, h⟩ := run_bind_eq_ok.1 h
  cases htoken
  split at h
  · rename_i hx
    cases h
    exact hx
  · cases h

/-- **The descriptors of a source** are names with suffixes. -/
theorem exists_suffixes_of_typeDescriptor {c c' : Cursor} {descriptor : String}
    (h : typeDescriptor.run c = .ok (descriptor, c')) :
    ∃ (base : String) (suffixes : List Suffix), c.current = .name base ∧
      descriptor = base ++ String.join (suffixes.map Suffix.text) := by
  unfold typeDescriptor at h
  obtain ⟨base, _, hbase, h⟩ := run_bind_eq_ok.1 h
  obtain ⟨texts, _, htexts, h⟩ := run_bind_eq_ok.1 h
  cases h
  obtain ⟨suffixes, rfl⟩ := exists_suffixes_of_manyWithin _ htexts
  exact ⟨base, suffixes, current_of_ident hbase, rfl⟩

end Parser

/-- **Resolution makes descriptors canonical.** The written form of what a descriptor names is a
descriptor of the same type. A descriptor with suffixes names what they make, from the left, of the
type of its base; it names a type exactly if its base does and each suffix fits. The descriptors of
a source are of that form. -/
theorem Ty.ofDescriptor_canonical (structs : StructTable) :
    (∀ (descriptor : String) (t : Ty), ofDescriptor structs descriptor = .ok t →
      ofDescriptor structs t.text = .ok t) ∧
    (∀ (base : String) (suffixes : List Suffix) (t : Ty),
      ofDescriptor structs (base ++ String.join (suffixes.map Suffix.text)) = .ok t ↔
        ∃ u, ofDescriptor structs base = .ok u ∧ Suffix.AllFit u suffixes ∧
          suffixes.foldl Suffix.on u = t) ∧
    ∀ (c c' : Cursor) (descriptor : String), Parser.typeDescriptor.run c = .ok (descriptor, c') →
      ∃ (base : String) (suffixes : List Suffix), c.current = .name base ∧
        descriptor = base ++ String.join (suffixes.map Suffix.text) := by
  refine ⟨fun descriptor t h => ?_, fun base suffixes t => ?_, fun c c' descriptor h => ?_⟩
  · exact resolve?_eq_some.1 (resolve?_text (resolve?_eq_some.2 h))
  · simp only [← resolve?_eq_some, String.toList_append, resolve?_suffixes]
  · exact Parser.exists_suffixes_of_typeDescriptor h

/-- Blanks, a plus sign and a leading zero are gone from the written form of a type, which a source
may hold as well. -/
theorem Ty.ofDescriptor_canonical_blanks :
    let structs : StructTable := ⟨[⟨"Pair", [], 8⟩]⟩
    let t : Ty := .array (.pointer (.struct "Pair" 8)) 4
    let c : Cursor := ⟨⟨.name "Pair", ⟨1, 1⟩⟩, [⟨.sign .star, ⟨1, 5⟩⟩, ⟨.sign .openParen, ⟨1, 6⟩⟩,
      ⟨.int 4, ⟨1, 7⟩⟩, ⟨.sign .closeParen, ⟨1, 8⟩⟩, ⟨.eof, ⟨1, 9⟩⟩], false⟩
    ofDescriptor structs " Pair * ( +04 )" = .ok t ∧ ofDescriptor structs "Pair*(4)" = .ok t ∧
      (∃ u, ofDescriptor structs "Pair" = .ok u ∧
        Suffix.AllFit u [.pointer, .array 4] ∧ [.pointer, .array 4].foldl Suffix.on u = t) ∧
      ∃ (base : String) (suffixes : List Suffix), c.current = .name base ∧
        "Pair*(4)" = base ++ String.join (suffixes.map Suffix.text) := by
  intro structs t c
  have h : ofDescriptor structs " Pair * ( +04 )" = .ok t := by decide +kernel
  have hcanonical := (ofDescriptor_canonical structs).1 _ t h
  have hread : Parser.typeDescriptor.run c = .ok ("Pair*(4)", ⟨⟨.eof, ⟨1, 9⟩⟩, [], false⟩) := rfl
  exact ⟨h, hcanonical, ((ofDescriptor_canonical structs).2.1 "Pair" [.pointer, .array 4] t).1
    hcanonical, (ofDescriptor_canonical structs).2.2 c _ _ hread⟩

end GLang
