import GLang.Proofs.DataSection

/-!
# Reading the data of a literal back

What an assembler makes of the operands of a `db` directive, and that it finds in them the
characters that the literal stands for.

* `Literal.unescape`: the characters that a literal stands for, escapes read.
* `Datum.Written`, `Literal.Reads`: how an operand and a list of operands may be written. Nothing is
  escaped in a quoted run, so it ends at the next quote.
* `Reads.eq_of_append`: a text begins with one list of operands at most, if what follows it can
  belong to no operand.
* `Literal.reads_operands`: the operands of a literal can be read, and in one way only.
-/

namespace GLang.Literal

/-! ### What a literal stands for -/

/-- The character that a backslash and `c` stand for. -/
def escaped : Char → Char
  | 'n' => Char.ofNat 10
  | 't' => Char.ofNat 9
  | '0' => Char.ofNat 0
  | '\\' => Char.ofNat 92
  | '"' => Char.ofNat 34
  | '\'' => Char.ofNat 39
  | c => c

/-- The characters that a literal stands for. A backslash that ends the literal is dropped. -/
def unescape : List Char → List Char
  | [] => []
  | ['\\'] => []
  | '\\' :: c :: cs => escaped c :: unescape cs
  | c :: cs => c :: unescape cs

/-- The characters that an operand stands for. -/
def Datum.chars : Datum → List Char
  | run cs => cs
  | byte n => [Char.ofNat n]

/-! ### How operands are written -/

def isHexDigit (c : Char) : Bool :=
  c.isDigit || (c.toNat ≥ 'A'.toNat && c.toNat ≤ 'F'.toNat) ||
    (c.toNat ≥ 'a'.toNat && c.toNat ≤ 'f'.toNat)

/-- The value of a hexadecimal digit, in capitals or not. -/
def hexDigitValue (c : Char) : Nat :=
  if c.isDigit then c.toNat - '0'.toNat
  else if c.toNat ≤ 'F'.toNat then c.toNat - 'A'.toNat + 10
  else c.toNat - 'a'.toNat + 10

/-- The number that hexadecimal digits spell, the most significant first. -/
def hexValue (ds : List Char) : Nat :=
  ds.foldl (fun n d => 16 * n + hexDigitValue d) 0

/-- How an operand may be written: as a run between double quotes, which stands for its characters
as they are, as a byte in hexadecimal, or as a zero. -/
inductive Datum.Written : List Char → Datum → Prop where
  | run {cs : List Char} (h : '"' ∉ cs) : Written ('"' :: (cs ++ ['"'])) (.run cs)
  | byte {ds : List Char} (hne : ds ≠ []) (hds : ∀ d ∈ ds, isHexDigit d) (hlt : hexValue ds < 256) :
      Written ('0' :: 'x' :: ds) (.byte (hexValue ds))
  | zero : Written ['0'] (.byte 0)

/-- Operands with commas between them; there may be spaces after a comma. -/
inductive Reads : List Char → List Datum → Prop where
  | single {t : List Char} {d : Datum} (h : d.Written t) : Reads t [d]
  | cons {t rest : List Char} {d : Datum} {ds : List Datum} (h : d.Written t) (spaces : Nat)
      (hrest : Reads rest ds) : Reads (t ++ ',' :: (List.replicate spaces ' ' ++ rest)) (d :: ds)

/-! ### There is one way to read a text -/

/-- What cannot go on an operand. -/
def Stops (rest : List Char) : Prop :=
  ∀ c, rest.head? = some c → isHexDigit c = false ∧ c ≠ 'x'

theorem stops_comma (rest : List Char) : Stops (',' :: rest) := by
  intro c hc
  cases hc
  decide

theorem eq_of_append_stop {p : Char → Prop} {xs ys x y : List Char} (h : xs ++ x = ys ++ y)
    (hxs : ∀ c ∈ xs, p c) (hys : ∀ c ∈ ys, p c) (hx : ∀ c, x.head? = some c → ¬ p c)
    (hy : ∀ c, y.head? = some c → ¬ p c) : xs = ys ∧ x = y := by
  induction xs generalizing ys with
  | nil =>
    cases ys with
    | nil => exact ⟨rfl, h⟩
    | cons c ys =>
      obtain ⟨hc, -⟩ := List.forall_mem_cons.1 hys
      exact absurd hc (hx c (by rw [show x = c :: (ys ++ y) from h]; rfl))
  | cons c xs ih =>
    obtain ⟨hc, hxs⟩ := List.forall_mem_cons.1 hxs
    cases ys with
    | nil => exact absurd hc (hy c (by rw [← show c :: (xs ++ x) = y from h]; rfl))
    | cons c' ys =>
      obtain ⟨rfl, hrest⟩ := List.cons.inj h
      obtain ⟨rfl, rfl⟩ := ih hrest hxs (List.forall_mem_cons.1 hys).2
      exact ⟨rfl, rfl⟩

/-- **An operand ends where it has to.** -/
theorem Datum.Written.eq_of_append {t u x y : List Char} {d e : Datum} (ht : d.Written t)
    (hu : e.Written u) (h : t ++ x = u ++ y) (hx : Stops x) (hy : Stops y) :
    d = e ∧ x = y := by
  cases ht with
  | @run cs hcs =>
    cases hu with
    | @run cs' hcs' =>
      -- Both runs end at the first quote after the one that opens them.
      have hquote : cs ++ '"' :: x = cs' ++ '"' :: y := by simpa using h
      obtain ⟨rfl, hrest⟩ := eq_of_append_stop (p := (· ≠ '"')) hquote
        (fun c hc => ne_of_mem_of_not_mem hc hcs) (fun c hc => ne_of_mem_of_not_mem hc hcs')
        (by simp) (by simp)
      exact ⟨rfl, (List.cons.inj hrest).2⟩
    | byte | zero => simp at h
  | @byte ds hne hds hlt =>
    cases hu with
    | run => simp at h
    | @byte ds' hne' hds' hlt' =>
      have hdigits : ds ++ x = ds' ++ y := by simpa using h
      obtain ⟨rfl, rfl⟩ := eq_of_append_stop (p := fun c => isHexDigit c = true) hdigits hds hds'
        (fun c hc => by simp [(hx c hc).1]) (fun c hc => by simp [(hy c hc).1])
      exact ⟨rfl, rfl⟩
    | zero =>
      have hx' : 'x' :: (ds ++ x) = y := by simpa using h
      exact absurd rfl (hy 'x' (by rw [← hx']; rfl)).2
  | zero =>
    cases hu with
    | run => simp at h
    | @byte ds' hne' hds' hlt' =>
      have hy' : x = 'x' :: (ds' ++ y) := by simpa using h
      exact absurd rfl (hx 'x' (by rw [hy']; rfl)).2
    | zero => exact ⟨rfl, by simpa using h⟩

theorem Datum.Written.head?_ne {t : List Char} {d : Datum} (h : d.Written t) :
    ∀ c, t.head? = some c → c ≠ ' ' := by
  intro c hc
  cases h with
  | run | byte | zero =>
    cases hc
    decide

theorem Reads.head?_ne {t : List Char} {ds : List Datum} (h : Reads t ds) (x : List Char) :
    ∀ c, (t ++ x).head? = some c → c ≠ ' ' := by
  have hwritten : ∀ {t : List Char} {d : Datum}, d.Written t → ∀ y c, (t ++ y).head? = some c →
      c ≠ ' ' := by
    intro t d h y c hc
    refine h.head?_ne c ?_
    cases h <;> exact hc
  cases h with
  | single h => exact hwritten h x
  | cons h spaces hrest =>
    rw [List.append_assoc]
    exact hwritten h _

/-- **A text begins with one list of operands at most,** if what follows it goes on none of them and
starts with no comma. -/
theorem Reads.eq_of_append {t u x y : List Char} {ds es : List Datum} (ht : Reads t ds)
    (hu : Reads u es) (h : t ++ x = u ++ y) (hx : Stops x) (hy : Stops y)
    (hx' : x.head? ≠ some ',') (hy' : y.head? ≠ some ',') : ds = es ∧ x = y := by
  induction ht generalizing u es with
  | single ht =>
    cases hu with
    | single hu =>
      obtain ⟨rfl, rfl⟩ := ht.eq_of_append hu h hx hy
      exact ⟨rfl, rfl⟩
    | cons hu spaces hrest =>
      rw [List.append_assoc] at h
      obtain ⟨-, rfl⟩ := ht.eq_of_append hu h hx (stops_comma _)
      exact absurd rfl hx'
  | cons ht spaces hrest ih =>
    rw [List.append_assoc] at h
    cases hu with
    | single hu =>
      obtain ⟨-, rfl⟩ := ht.eq_of_append hu h (stops_comma _) hy
      exact absurd rfl hy'
    | @cons _ rest' _ es hu spaces' hrest' =>
      rw [List.append_assoc] at h
      obtain ⟨rfl, htail⟩ := ht.eq_of_append hu h (stops_comma _) (stops_comma _)
      simp only [List.cons_append, List.append_assoc] at htail
      obtain ⟨-, hafter⟩ := eq_of_append_stop (p := (· = ' ')) (List.cons.inj htail).2
        (fun c hc => List.eq_of_mem_replicate hc) (fun c hc => List.eq_of_mem_replicate hc)
        (hrest.head?_ne x) (hrest'.head?_ne y)
      obtain ⟨rfl, rfl⟩ := ih hrest' hafter
      exact ⟨rfl, rfl⟩

theorem Reads.unique {t : List Char} {ds es : List Datum} (h : Reads t ds) (h' : Reads t es) :
    ds = es :=
  (h.eq_of_append (x := []) (y := []) h' rfl (by simp [Stops]) (by simp [Stops]) (by simp)
    (by simp)).1

/-! ### The operands of a literal -/

theorem hexDigit_spec : ∀ n < 16, isHexDigit (hexDigit n) ∧ hexDigitValue (hexDigit n) = n := by
  decide

/-- A byte is written as a byte. -/
theorem written_byteText {n : Nat} (h : n < 256) : (Datum.byte n).Written (byteText n).toList := by
  unfold byteText
  split
  · rename_i hsmall
    obtain ⟨hdigit, hvalue⟩ := hexDigit_spec n hsmall
    have hn : hexValue [hexDigit n] = n := by simp [hexValue, hvalue]
    rw [String.toList_append, String.toList_ofList, String.toList_ofList]
    have hwritten := @Datum.Written.byte [hexDigit n] (by simp) (by simpa using hdigit)
      (by rw [hn]; exact h)
    rwa [hn] at hwritten
  · obtain ⟨hhigh, hhighValue⟩ := hexDigit_spec (n / 16) (by omega)
    obtain ⟨hlow, hlowValue⟩ := hexDigit_spec (n % 16) (by omega)
    have hn : hexValue [hexDigit (n / 16), hexDigit (n % 16)] = n := by
      simp only [hexValue, List.foldl_cons, List.foldl_nil, hhighValue, hlowValue]
      omega
    rw [String.toList_append, String.toList_ofList, String.toList_ofList]
    have hwritten := @Datum.Written.byte [hexDigit (n / 16), hexDigit (n % 16)] (by simp)
      (by simp [hhigh, hlow]) (by rw [hn]; exact h)
    rwa [hn] at hwritten

/-- What is written as a run is no quote, and what is written as a number is a byte. -/
def IsUnit : Char ⊕ Nat → Prop
  | .inl c => c ≠ '"' ∧ c ≠ '\''
  | .inr n => n < 256

/-- The character that a unit stands for. -/
def unitChar : Char ⊕ Nat → Char
  | .inl c => c
  | .inr n => Char.ofNat n

theorem escape?_spec (c : Char) :
    (∀ n, escape? c = some n → n < 256 ∧ escaped c = Char.ofNat n) ∧
      (escape? c = none → escaped c = c ∧ c ≠ '"' ∧ c ≠ '\'') := by
  unfold escape? escaped
  split <;> simp_all

theorem quote?_spec (c : Char) :
    (∀ n, quote? c = some n → n < 256 ∧ c = Char.ofNat n) ∧
      (quote? c = none → c ≠ '"' ∧ c ≠ '\'') := by
  unfold quote?
  split <;> simp_all

/-- **The units of a literal are what it stands for.** -/
theorem units_spec (cs : List Char) :
    (∀ u ∈ units cs, IsUnit u) ∧ (units cs).map unitChar = unescape cs := by
  fun_induction units cs with
  | case1 => exact ⟨by simp, rfl⟩
  | case2 => exact ⟨by simp, rfl⟩
  | case3 c cs n hn ih =>
    obtain ⟨hlt, hchar⟩ := (escape?_spec c).1 n hn
    refine ⟨List.forall_mem_cons.2 ⟨hlt, ih.1⟩, ?_⟩
    rw [List.map_cons, ih.2, unescape, hchar]
    rfl
  | case4 c cs hn ih =>
    obtain ⟨hchar, hquote⟩ := (escape?_spec c).2 hn
    refine ⟨List.forall_mem_cons.2 ⟨hquote, ih.1⟩, ?_⟩
    rw [List.map_cons, ih.2, unescape, hchar]
    rfl
  | case5 c cs hlast hpair n hn ih =>
    obtain ⟨hlt, hchar⟩ := (quote?_spec c).1 n hn
    refine ⟨List.forall_mem_cons.2 ⟨hlt, ih.1⟩, ?_⟩
    rw [List.map_cons, ih.2, unescape.eq_4 c cs hlast hpair, unitChar, ← hchar]
  | case6 c cs hlast hpair hn ih =>
    refine ⟨List.forall_mem_cons.2 ⟨(quote?_spec c).2 hn, ih.1⟩, ?_⟩
    rw [List.map_cons, ih.2, unescape.eq_4 c cs hlast hpair]
    rfl

/-- An operand as it stands in the data of a literal. -/
def Datum.IsPlain : Datum → Prop
  | run cs => cs ≠ [] ∧ ∀ c ∈ cs, c ≠ '"' ∧ c ≠ '\''
  | byte n => n < 256

theorem Datum.IsPlain.written {d : Datum} (h : d.IsPlain) : d.Written d.text.toList := by
  cases d with
  | run cs =>
    have hquote : '"' ∉ cs := fun hmem => (h.2 _ hmem).1 rfl
    have htext : (run cs).text.toList = '"' :: (cs ++ ['"']) := by simp [text]
    rw [htext]
    exact .run hquote
  | byte n => exact written_byteText h

/-- **Gathering characters into runs changes nothing of what they stand for.** -/
theorem gather_spec {us : List (Char ⊕ Nat)} (h : ∀ u ∈ us, IsUnit u) :
    (∀ d ∈ gather us, d.IsPlain) ∧ (gather us).flatMap Datum.chars = us.map unitChar := by
  fun_induction gather us with
  | case1 => exact ⟨by simp, rfl⟩
  | case2 n us ih =>
    obtain ⟨hn, hus⟩ := List.forall_mem_cons.1 h
    obtain ⟨hplain, hchars⟩ := ih hus
    exact ⟨List.forall_mem_cons.2 ⟨hn, hplain⟩, by rw [List.flatMap_cons, hchars]; rfl⟩
  | case3 c us cs more hmore ih =>
    obtain ⟨hc, hus⟩ := List.forall_mem_cons.1 h
    obtain ⟨hplain, hchars⟩ := ih hus
    rw [hmore] at hplain hchars
    obtain ⟨hrun, hplain⟩ := List.forall_mem_cons.1 hplain
    refine ⟨List.forall_mem_cons.2 ⟨⟨by simp, List.forall_mem_cons.2 ⟨hc, hrun.2⟩⟩, hplain⟩, ?_⟩
    rw [List.map_cons, ← hchars]
    rfl
  | case4 c us _ ih =>
    obtain ⟨hc, hus⟩ := List.forall_mem_cons.1 h
    obtain ⟨hplain, hchars⟩ := ih hus
    refine ⟨List.forall_mem_cons.2 ⟨⟨by simp, List.forall_mem_singleton.2 hc⟩, hplain⟩, ?_⟩
    rw [List.flatMap_cons, hchars]
    rfl

theorem reads_data {ds : List Datum} (h : ∀ d ∈ ds, d.IsPlain) :
    Reads (String.join (ds.map fun d => d.text ++ ", ") ++ "0").toList (ds ++ [.byte 0]) := by
  induction ds with
  | nil => exact .single .zero
  | cons d ds ih =>
    obtain ⟨hd, hds⟩ := List.forall_mem_cons.1 h
    have hread := Reads.cons hd.written 1 (ih hds)
    have htext : (String.join ((d :: ds).map fun d => d.text ++ ", ") ++ "0").toList =
        d.text.toList ++ ',' :: (List.replicate 1 ' ' ++
          (String.join (ds.map fun d => d.text ++ ", ") ++ "0").toList) := by
      rw [List.map_cons, String.join_cons]
      simp [String.toList_append]
    rw [htext]
    exact hread

theorem reads_of_operands (raw : String) :
    Reads (operands raw).toList (data raw ++ [.byte 0]) := by
  rw [operands_eq]
  exact reads_data (gather_spec (units_spec raw.toList).1).1

/-- **The data of a literal is the literal.** The operands can be read, and in one way only. They
stand for the characters that the literal stands for, with a zero byte at the end. No run among them
is empty or holds a quote. -/
theorem reads_operands (raw : String) :
    ∃ ds, (∀ es, Reads (operands raw).toList es ↔ es = ds) ∧
      ds.flatMap Datum.chars = unescape raw.toList ++ [Char.ofNat 0] ∧
      ∀ cs, .run cs ∈ ds → cs ≠ [] ∧ '"' ∉ cs ∧ '\'' ∉ cs := by
  obtain ⟨hunits, hunescape⟩ := units_spec raw.toList
  obtain ⟨hplain, hchars⟩ := gather_spec hunits
  have hreads := reads_of_operands raw
  refine ⟨data raw ++ [.byte 0], fun es => ⟨fun h => h.unique hreads, ?_⟩, ?_, ?_⟩
  · rintro rfl
    exact hreads
  · rw [List.flatMap_append, data, hchars, hunescape]
    rfl
  · intro cs hcs
    have hrun : .run cs ∈ data raw := by simpa using hcs
    obtain ⟨hne, hquotes⟩ := hplain _ hrun
    exact ⟨hne, fun hmem => (hquotes _ hmem).1 rfl, fun hmem => (hquotes _ hmem).2 rfl⟩

/-- Escapes, quotes and commas side by side, and a backslash at the end. -/
example : operands "a\\n,\"\\q\\0'b\\" = "\"a\", 0xA, \",\", 0x22, \"q\", 0x0, 0x27, \"b\", 0" := by
  decide +kernel

end GLang.Literal
