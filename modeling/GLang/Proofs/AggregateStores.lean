import GLang.Proofs.Capture
import GLang.Proofs.LiveScopes
import GLang.Proofs.Pointers

/-!
# Stores of aggregates

An aggregate is pushed by one call of `memcpy` and popped by another. Between the two its bytes are
on the stack, below all that the program can name, so it does not matter whether the place that they
come from and the place that they go to overlap: each call copies between blocks that are apart.

* `Environment.Copies`: what `memcpy` is asked to do. It says nothing of blocks that overlap.
* `Copied`: a block has been copied, and nothing else has changed above the stack.
* `Expr.AggregateAt`: where the value of an aggregate variable or of a dereference lies.
* `Stmt.StoresTo`: where a statement stores its value.
* `Stmt.aggregate_store_copies`: the code of such a statement copies the value to its place.
-/

namespace GLang

open Asm

/-! ### Copies -/

namespace Asm

/-- The `n` bytes from `a` on lie at or above `limit`. -/
def Above (limit : Nat) (a : Word) (n : Nat) : Prop :=
  ∀ b : Word, (b - a).toNat < n → limit ≤ b.toNat

/-- From `m` to `m'` the `n` bytes from `src` on have been copied to `dst`. All other bytes at or
above `limit` are as they were. -/
structure Copied (limit n : Nat) (dst src : Word) (m m' : Machine) : Prop where
  ebp : m'.ebp = m.ebp
  block : ∀ d : Word, d.toNat < n → m'.memory (dst + d) = m.memory (src + d)
  rest : ∀ b : Word, limit ≤ b.toNat → n ≤ (b - dst).toNat → m'.memory b = m.memory b

/-- `memcpy` copies between blocks that have no byte in common and lie above its arguments, and it
leaves `esp` and `ebp`. It may use the other registers, its arguments and all that is below them. -/
def Environment.Copies (env : Environment) : Prop :=
  ∀ (m : Machine) (dst src : Word) (n : Nat), m.memory.load .dword m.esp = dst →
    m.memory.load .dword (m.esp + 4) = src → (m.memory.load .dword (m.esp + 8)).toNat = n →
    Above (m.esp.toNat + 12) dst n → Above (m.esp.toNat + 12) src n →
    (∀ b : Word, (b - dst).toNat < n → n ≤ (b - src).toNat) →
    ∃ m', env.call "memcpy" m = some m' ∧ m'.esp = m.esp ∧
      Copied (m.esp.toNat + 12) n dst src m m'

theorem Above.mono {limit limit' n : Nat} {a : Word} (h : Above limit a n) (hl : limit' ≤ limit) :
    Above limit' a n :=
  fun b hb => hl.trans (h b hb)

theorem Above.load_eq {limit : Nat} {a : Word} {mem mem' : Memory} (h : Above limit a 4)
    (hmem : ∀ b : Word, limit ≤ b.toNat → mem b = mem' b) :
    mem.load .dword a = mem'.load .dword a :=
  Memory.load_congr fun b hb => hmem b (h b hb)

theorem above_self {a : Word} {n : Nat} (h : a.toNat + n ≤ 2 ^ 32) : Above a.toNat a n := by
  intro b hb
  bv_omega

theorem Memory.read_shift (mem : Memory) (k : Word) {n : Nat} :
    ∀ a : Word, Memory.read (fun b => mem (b + k)) a n = mem.read (a + k) n := by
  induction n with
  | zero => exact fun a => rfl
  | succ n ih =>
    intro a
    rw [read, read, ih, add_right_comm]

theorem Memory.byte_of_load_eq {mem mem' : Memory} {a a' d : Word}
    (h : mem'.load .dword a' = mem.load .dword a) (hd : d.toNat < 4) :
    mem' (a' + d) = mem (a + d) := by
  have hload : mem'.load .dword a' = Memory.load (fun b => mem (b + (a - a'))) .dword a' := by
    rw [h, load, load, read_shift, show a' + (a - a') = a by bv_omega]
  have hbyte := eq_of_load_eq (b := a' + d) hload (show (a' + d - a').toNat < 4 by bv_omega)
  rw [hbyte, show a' + d + (a - a') = a + d by bv_omega]

namespace Copied

variable {limit n : Nat} {dst tmp src : Word} {m m₁ m' : Machine}

theorem mono (h : Copied limit n dst src m m') {limit' : Nat} (hl : limit ≤ limit') :
    Copied limit' n dst src m m' :=
  ⟨h.ebp, h.block, fun b hb => h.rest b (hl.trans hb)⟩

theorem trans (h : Copied limit n tmp src m m₁) (h' : Copied limit n dst tmp m₁ m')
    (htmp : ∀ b : Word, limit ≤ b.toNat → n ≤ (b - tmp).toNat) : Copied limit n dst src m m' where
  ebp := h'.ebp.trans h.ebp
  block d hd := (h'.block d hd).trans (h.block d hd)
  rest b hb hdst := (h'.rest b hb hdst).trans (h.rest b hb (htmp b hb))

theorem of_store (limit : Nat) (hebp : m'.ebp = m.ebp)
    (hmem : m'.memory = m.memory.store .dword dst (m.memory.load .dword src)) :
    Copied limit 4 dst src m m' where
  ebp := hebp
  block d hd := by
    refine Memory.byte_of_load_eq ?_ hd
    rw [hmem, Memory.load_store, Width.truncate_dword]
  rest b _ hdst := by
    rw [hmem]
    exact Memory.store_of_le hdst

theorem of_agree (h : Copied limit n dst src m₁ m') (hebp : m₁.ebp = m.ebp)
    (hmem : ∀ b : Word, limit ≤ b.toNat → m₁.memory b = m.memory b) (hsrc : Above limit src n) :
    Copied limit n dst src m m' where
  ebp := h.ebp.trans hebp
  block d hd := (h.block d hd).trans (hmem _ (hsrc _ (by bv_omega)))
  rest b hb hdst := (h.rest b hb hdst).trans (hmem b hb)

end Copied

/-- Calls `memcpy` on addresses that are in registers. -/
def copyCall (size : Nat) (src dst : Reg) : List Instr :=
  [.pushImm size, .pushReg src, .pushReg dst, .call "memcpy", .arith .add .esp (.imm 12)]

/-- `size` bytes have been pushed, and nothing above them has changed. -/
structure Grown (size : Nat) (m m' : Machine) : Prop where
  esp : m'.esp.toNat + size = m.esp.toNat
  ebp : m'.ebp = m.ebp
  memory : ∀ b : Word, m.esp.toNat ≤ b.toNat → m'.memory b = m.memory b

/-- Code that pushes the `size` bytes from `src` on. -/
def Fetches (env : Environment) (code : List Instr) (m : Machine) (size : Nat) (src : Word) :
    Prop :=
  ∃ m', Instr.run env code m = some m' ∧ m'.esp.toNat + size = m.esp.toNat ∧
    Copied m.esp.toNat size m'.esp src m m'

/-- Code that pops the `size` bytes on top of the stack to `dst`, and `extra` bytes with them. -/
def Delivers (env : Environment) (code : List Instr) (m : Machine) (size extra : Nat) (dst : Word) :
    Prop :=
  ∃ m', Instr.run env code m = some m' ∧ m'.esp.toNat = m.esp.toNat + size + extra ∧
    Copied (m.esp.toNat + size) size dst m.esp m m'

section Run

variable {env : Environment} {m : Machine} {size : Nat}

theorem Machine.get_push {r : Reg} (hr : r ≠ .esp) (m : Machine) (v : Word) :
    (m.push v).get r = m.get r := by
  cases r with
  | esp => exact absurd rfl hr
  | eax | ecx | edx | ebp => rfl

theorem pushes_push (hroom : 4 ≤ m.esp.toNat) (v : Word) :
    Pushes m.esp.toNat m (m.push v) v m.memory :=
  .of_store (fun _ _ => rfl) hroom (Nat.le_refl _) rfl rfl rfl

theorem load_of_pushes {m₁ m₂ m₃ : Machine} {a b c : Word}
    (h₁ : Pushes m.esp.toNat m m₁ a m.memory) (h₂ : Pushes m₁.esp.toNat m₁ m₂ b m₁.memory)
    (h₃ : Pushes m₂.esp.toNat m₂ m₃ c m₂.memory) :
    Grown 12 m m₃ ∧ m₃.memory.load .dword m₃.esp = c ∧ m₃.memory.load .dword (m₃.esp + 4) = b ∧
      m₃.memory.load .dword (m₃.esp + 8) = a := by
  have hlt := m.esp.isLt
  have hesp₁ := h₁.esp
  have hesp₂ := h₂.esp
  have hesp₃ := h₃.esp
  have hkeeps : ∀ d : Word, m₁.esp.toNat ≤ d.toNat → m₃.memory d = m₁.memory d := fun d hd =>
    (h₃.agrees d (by omega)).trans (h₂.agrees d hd)
  refine ⟨⟨by omega, ?_, fun d hd => ?_⟩, h₃.top, ?_, ?_⟩
  · rw [h₃.ebp, h₂.ebp, h₁.ebp]
  · rw [hkeeps d (by omega), h₁.agrees d hd]
  · rw [show m₃.esp + 4 = m₂.esp by bv_omega, (above_self (by omega)).load_eq h₃.agrees]
    exact h₂.top
  · rw [show m₃.esp + 8 = m₁.esp by bv_omega, (above_self (by omega)).load_eq hkeeps]
    exact h₁.top

theorem run_copyCall (henv : env.Copies) (r r' : Reg) (hr : r ≠ .esp) (hr' : r' ≠ .esp)
    (hroom : 12 ≤ m.esp.toNat) (hdst : Above m.esp.toNat (m.get r') size)
    (hsrc : Above m.esp.toNat (m.get r) size) (hsize : size < 2 ^ 32)
    (hapart : ∀ b : Word, (b - m.get r').toNat < size → size ≤ (b - m.get r).toNat) :
    ∃ m', Instr.run env (copyCall size r r') m = some m' ∧ m'.esp = m.esp ∧
      Copied m.esp.toNat size (m.get r') (m.get r) m m' := by
  let m₁ := m.push (.ofInt 32 size)
  let m₂ := m₁.push (m₁.get r)
  let m₃ := m₂.push (m₂.get r')
  have h₁ : Pushes m.esp.toNat m m₁ (.ofInt 32 size) m.memory := pushes_push (by omega) _
  have hesp₁ := h₁.esp
  have h₂ : Pushes m₁.esp.toNat m₁ m₂ (m.get r) m₁.memory :=
    Machine.get_push hr m _ ▸ pushes_push (by omega) _
  have hesp₂ := h₂.esp
  have hget : m₂.get r' = m.get r' := (Machine.get_push hr' _ _).trans (Machine.get_push hr' _ _)
  have h₃ : Pushes m₂.esp.toNat m₂ m₃ (m.get r') m₂.memory := hget ▸ pushes_push (by omega) _
  -- The arguments are below both blocks, so these are still as they were when `memcpy` starts.
  obtain ⟨hgrown, hdstArg, hsrcArg, hsizeArg⟩ := load_of_pushes h₁ h₂ h₃
  have hsizeArg : (m₃.memory.load .dword (m₃.esp + 8)).toNat = size := by
    rw [hsizeArg, BitVec.ofInt_natCast, BitVec.toNat_ofNat, Nat.mod_eq_of_lt hsize]
  have hesp := hgrown.esp
  obtain ⟨m₄, hcall, hesp₄, hcopied⟩ := henv m₃ (m.get r') (m.get r) size hdstArg hsrcArg hsizeArg
    (hesp ▸ hdst) (hesp ▸ hsrc) hapart
  rw [hesp] at hcopied
  have hcopied := hcopied.of_agree hgrown.ebp hgrown.memory hsrc
  refine ⟨{ m₄ with esp := m₄.esp + 12, flags := .ofAdd m₄.esp 12 }, ?_, ?_,
    hcopied.ebp, hcopied.block, hcopied.rest⟩
  · show ((env.call "memcpy" m₃).bind fun m => _) = _
    rw [hcall]
    rfl
  · show m₄.esp + 12 = m.esp
    rw [hesp₄]
    bv_omega

theorem fetches_pushCopy (henv : env.Copies) (hroom : size + 12 ≤ m.esp.toNat)
    (hsrc : Above m.esp.toNat m.eax size) : Fetches env (pushCopy size) m size m.eax := by
  let m₁ : Machine := { m with
    esp := m.esp - .ofInt 32 size
    edx := m.esp - .ofInt 32 size
    flags := .ofSub m.esp (.ofInt 32 size) }
  have hsize : size < 2 ^ 32 := by omega
  have hesp : m₁.esp.toNat + size = m.esp.toNat := by
    show (m.esp - .ofInt 32 size).toNat + size = m.esp.toNat
    rw [BitVec.ofInt_natCast, BitVec.toNat_sub, BitVec.toNat_ofNat]
    omega
  have hdst : Above m₁.esp.toNat m₁.esp size := above_self (by omega)
  obtain ⟨m', hrun, hesp', hcopied⟩ := run_copyCall (m := m₁) henv .eax .edx
    (by decide) (by decide) (by omega) hdst (hsrc.mono (by omega)) hsize fun b hb => by
      -- the room on the stack is below what is copied
      by_contra hlt
      have hb : (b - m₁.esp).toNat < size := hb
      have hle : m.esp.toNat ≤ b.toNat := hsrc b (Nat.not_le.1 hlt)
      bv_omega
  refine ⟨m', hrun, hesp' ▸ hesp, hcopied.ebp, fun d hd => ?_, fun b hb hout => ?_⟩
  · rw [hesp']
    exact hcopied.block d hd
  · rw [hesp'] at hout
    exact hcopied.rest b (by omega) hout

theorem delivers_popCopy (henv : env.Copies) (extra : Nat) (hroom : 12 ≤ m.esp.toNat)
    (hfits : m.esp.toNat + size + extra < 2 ^ 32) (hdst : Above (m.esp.toNat + size) m.eax size) :
    Delivers env (popCopy size extra) m size extra m.eax := by
  let m₁ : Machine := { m with edx := m.esp }
  have hsrc : Above m.esp.toNat m.esp size := above_self (by omega)
  obtain ⟨m₂, hrun, hesp, hcopied⟩ := run_copyCall (m := m₁) henv .edx .eax
    (by decide) (by decide) hroom (hdst.mono (Nat.le_add_right _ _)) hsrc (by omega)
    fun b hb => by
      have hle := hdst b hb
      show size ≤ (b - m.esp).toNat
      bv_omega
  have hcopied := hcopied.mono (Nat.le_add_right m.esp.toNat size)
  refine ⟨{ m₂ with
    esp := m₂.esp + .ofInt 32 (size + extra : Nat)
    flags := .ofAdd m₂.esp (.ofInt 32 (size + extra : Nat)) }, ?_, ?_,
    hcopied.ebp, hcopied.block, hcopied.rest⟩
  · have hcode : popCopy size extra = (.move .edx .esp :: copyCall size .edx .eax) ++
        [.arith .add .esp (.imm (size + extra : Nat))] := rfl
    rw [hcode]
    exact Instr.run_append_eq_some.2 ⟨m₂, hrun, rfl⟩
  · show (m₂.esp + .ofInt 32 (size + extra : Nat)).toNat = _
    rw [hesp, BitVec.ofInt_natCast, BitVec.toNat_add, BitVec.toNat_ofNat]
    show (m.esp.toNat + _) % _ = _
    omega

variable {dst src : Word} {extra : Nat}

theorem Fetches.cons {i : Instr} {code : List Instr} {v : Word}
    (hi : i.exec env m = some { m with eax := v })
    (h : Fetches env code { m with eax := v } size src) : Fetches env (i :: code) m size src := by
  obtain ⟨m', hrun, hesp, hcopied⟩ := h
  refine ⟨m', ?_, hesp, hcopied.ebp, hcopied.block, hcopied.rest⟩
  rw [Instr.run, hi]
  exact hrun

/-- A block is delivered once its place is in `eax`. -/
theorem delivers_cons_popCopy (henv : env.Copies) {i : Instr}
    (hi : i.exec env m = some { m with eax := dst }) (hroom : 12 ≤ m.esp.toNat)
    (hfits : m.esp.toNat + size + extra < 2 ^ 32) (hdst : Above (m.esp.toNat + size) dst size) :
    Delivers env (i :: popCopy size extra) m size extra dst := by
  obtain ⟨m', hrun, hesp, hcopied⟩ :=
    delivers_popCopy (m := { m with eax := dst }) henv extra hroom hfits hdst
  refine ⟨m', ?_, hesp, hcopied.ebp, hcopied.block, hcopied.rest⟩
  rw [Instr.run, hi]
  exact hrun

theorem delivers_store {code : List Instr} {m' : Machine} (hrun : Instr.run env code m = some m')
    (hesp : m'.esp = m.esp + 4 + .ofNat 32 extra) (hebp : m'.ebp = m.ebp)
    (hmem : m'.memory = m.memory.store .dword dst (m.memory.load .dword m.esp))
    (hfits : m.esp.toNat + 4 + extra < 2 ^ 32) : Delivers env code m 4 extra dst := by
  refine ⟨m', hrun, ?_, .of_store _ hebp hmem⟩
  have hextra : (BitVec.ofNat 32 extra).toNat = extra := by
    rw [BitVec.toNat_ofNat]
    omega
  rw [hesp]
  bv_omega

/-- A block is fetched and delivered: meanwhile it is below all bytes that count. -/
theorem Fetches.append {fetch deliver : List Instr} (h : Fetches env fetch m size src)
    (hdeliver : ∀ m₁, Grown size m m₁ → Delivers env deliver m₁ size extra dst) :
    ∃ m', Instr.run env (fetch ++ deliver) m = some m' ∧ m'.esp.toNat = m.esp.toNat + extra ∧
      Copied m.esp.toNat size dst src m m' := by
  obtain ⟨m₁, hrun₁, hesp₁, hcopied₁⟩ := h
  have hbelow : ∀ b : Word, m.esp.toNat ≤ b.toNat → size ≤ (b - m₁.esp).toNat := by
    intro b hb
    bv_omega
  obtain ⟨m', hrun, hesp, hcopied⟩ :=
    hdeliver m₁ ⟨hesp₁, hcopied₁.ebp, fun b hb => hcopied₁.rest b hb (hbelow b hb)⟩
  rw [hesp₁] at hesp hcopied
  exact ⟨m', Instr.run_append_eq_some.2 ⟨m₁, hrun₁, hrun⟩, hesp, hcopied₁.trans hcopied hbelow⟩

end Run

end Asm

/-! ### Values -/

/-- What a variable points to: the address that it holds, or the array itself. -/
def Symbol.target (s : Symbol) (base : Word) (mem : Memory) : Word :=
  if s.type.isArray then s.place base else mem.load .dword (s.place base)

namespace Expr

/-- The expression is an aggregate variable or the dereference of a variable that points to an
aggregate. Its value has type `t` and lies at `src`; to find it, the words at `slots` are read. -/
inductive AggregateAt (ctx : Context) (base : Word) (mem : Memory) :
    Expr → Ty → Word → List Word → Prop where
  | var {x s} (hx : ctx.lookup x = .ok s) (ht : ¬ s.type.isPrimitive) :
      AggregateAt ctx base mem (.var x) s.type (s.place base) []
  | deref {p s t} (hp : ctx.lookup p = .ok s) (ht : s.type.pointee? = some t)
      (ha : ¬ t.isPrimitive) :
      AggregateAt ctx base mem (.deref (.var p)) t (s.target base mem) [s.place base]

/-- The expression is a pointer variable or the address of a variable, possibly with casts. Its
value is `a`; to find it, the words at `slots` are read. -/
inductive PointsTo (ctx : Context) (base : Word) (mem : Memory) :
    Expr → Word → List Word → Prop where
  | var {p s} (hp : ctx.lookup p = .ok s) (ht : s.type.isPointer) :
      PointsTo ctx base mem (.var p) (mem.load .dword (s.place base)) [s.place base]
  | addressOf {x s} (hx : ctx.lookup x = .ok s) :
      PointsTo ctx base mem (.addressOf x) (s.place base) []
  | cast {e target a slots} (h : PointsTo ctx base mem e a slots) :
      PointsTo ctx base mem (.cast e target) a slots

variable {ctx : Context} {base : Word} {mem mem' : Memory} {limit : Nat}

theorem infer_var {x : String} {s : Symbol} (hx : ctx.lookup x = .ok s) :
    (Expr.var x).infer ctx = .ok s.type := by
  rw [infer]
  show inferFromLeaves ctx (.var x) = _
  have hlookup : (variableNames (Expr.var x).nodes).mapM ctx.lookup = .ok [s] := by
    show [x].mapM ctx.lookup = _
    rw [List.mapM_cons, hx]
    rfl
  simp only [inferFromLeaves, hlookup]
  obtain ⟨name, t, offset⟩ := s
  cases t <;> rfl

theorem readType_var {x : String} {s : Symbol} {t : Ty} (hx : ctx.lookup x = .ok s)
    (ht : s.type.pointee? = some t) : (Expr.var x).readType ctx = .ok t := by
  rw [readType, infer_var hx]
  show Ty.read _ s.type = _
  rw [Ty.read, ht]

theorem arraySymbol?_var {x : String} {s : Symbol} (hx : ctx.lookup x = .ok s) :
    (Expr.var x).arraySymbol? ctx = if s.type.isArray then some s else none := by
  rw [arraySymbol?, find?_of_lookup hx, Option.filter_some]

end Expr

theorem Symbol.target_congr (s : Symbol) {base : Word} {mem mem' : Memory} {limit : Nat}
    (h : Above limit (s.place base) 4) (hmem : ∀ b : Word, limit ≤ b.toNat → mem b = mem' b) :
    s.target base mem = s.target base mem' := by
  rw [target, target, h.load_eq hmem]

theorem Expr.AggregateAt.of_agree {ctx : Context} {base : Word} {mem mem' : Memory} {limit : Nat}
    {e : Expr} {t : Ty} {src : Word} {slots : List Word}
    (h : e.AggregateAt ctx base mem t src slots) (hslots : ∀ a ∈ slots, Above limit a 4)
    (hmem : ∀ b : Word, limit ≤ b.toNat → mem b = mem' b) :
    e.AggregateAt ctx base mem' t src slots := by
  cases h with
  | var hx ht => exact .var hx ht
  | @deref p s t hp ht ha =>
    rw [s.target_congr (hslots _ List.mem_cons_self) hmem]
    exact .deref hp ht ha

section Values

variable {ctx : Context} {env : Environment} {m : Machine}

theorem Ty.isPrimitive_of_isPointer {t : Ty} (h : t.isPointer) :
    t.isPrimitive ∧ t.width = .dword := by
  cases t with
  | pointer => exact ⟨rfl, rfl⟩
  | primitive | array | struct => cases h

theorem Ty.isPointer_of_pointee? {t pointee : Ty} (h : t.pointee? = some pointee)
    (ha : ¬ t.isArray) : t.isPointer := by
  cases t with
  | pointer => rfl
  | array => exact absurd rfl ha
  | primitive | struct => cases h

theorem Symbol.pushes_pushCode (env : Environment) {s : Symbol} (hp : s.type.isPointer)
    (hroom : 4 ≤ m.esp.toNat) :
    ∃ m', Instr.run env s.pushCode m = some m' ∧
      Pushes m.esp.toNat m m' (m.memory.load .dword (s.place m.ebp)) m.memory := by
  obtain ⟨hprimitive, hwidth⟩ := Ty.isPrimitive_of_isPointer hp
  obtain ⟨m', hrun, hesp, hebp, hmem⟩ := Symbol.run_pushCode env m hprimitive
  rw [hwidth] at hmem
  exact ⟨m', hrun, .of_store (fun _ _ => rfl) hroom (Nat.le_refl _) hesp hebp hmem⟩

theorem fetches_pushIndirect (henv : env.Copies) {t : Ty} (ht : ¬ t.isPrimitive)
    (hroom : t.alignedSize + 12 ≤ m.esp.toNat) (hsrc : Above m.esp.toNat m.eax t.alignedSize) :
    Fetches env (pushIndirect t) m t.alignedSize m.eax := by
  rw [pushIndirect, if_neg ht]
  exact fetches_pushCopy henv hroom hsrc

theorem Pushes.fetches_popIndirect (henv : env.Copies) {t : Ty} (ht : ¬ t.isPrimitive)
    (hroom : t.alignedSize + 12 ≤ m.esp.toNat) {a : Word} (hsrc : Above m.esp.toNat a t.alignedSize)
    {address : List Instr} {m₁ : Machine} (hrun₁ : Instr.run env address m = some m₁)
    (hpush : Pushes m.esp.toNat m m₁ a m.memory) :
    Fetches env (address ++ .pop .eax :: pushIndirect t) m t.alignedSize a := by
  have hesp₁ := hpush.esp
  have hback : m₁.esp + 4 = m.esp := by bv_omega
  have hfetch := fetches_pushIndirect (m := { m₁ with esp := m.esp, eax := a }) henv ht hroom hsrc
  obtain ⟨m', hrun, hesp, hcopied⟩ := hfetch
  refine ⟨m', Instr.run_append_eq_some.2 ⟨m₁, hrun₁, ?_⟩, hesp,
    hcopied.of_agree hpush.ebp hpush.agrees hsrc⟩
  show Instr.run env (pushIndirect t) { m₁ with esp := m₁.esp + 4, eax := m₁.top } = some m'
  rw [hback, hpush.top]
  exact hrun

/-- **The code of an aggregate pushes its bytes.** -/
theorem Expr.AggregateAt.fetches (henv : env.Copies) {e : Expr} {t : Ty} {src : Word}
    {slots : List Word} {code : List Instr} (h : e.AggregateAt ctx m.ebp m.memory t src slots)
    (hcode : e.lower ctx = .ok code) (hroom : t.alignedSize + 12 ≤ m.esp.toNat)
    (hsrc : Above m.esp.toNat src t.alignedSize) :
    Fetches env code m t.alignedSize src := by
  cases h with
  | @var x s hx ht =>
    obtain ⟨s', hx', rfl⟩ := lower_var.1 hcode
    cases hx.symm.trans hx'
    rw [Symbol.pushCode, if_neg ht]
    exact .cons rfl (fetches_pushCopy (m := { m with eax := s.place m.ebp }) henv hroom hsrc)
  | @deref p s t hp ht ha =>
    obtain ⟨t', ht', hcode⟩ := lower_deref.1 hcode
    cases (readType_var hp ht).symm.trans ht'
    rw [arraySymbol?_var hp] at hcode
    rw [Symbol.target] at hsrc ⊢
    by_cases harray : s.type.isArray
    · rw [if_pos harray] at hcode hsrc ⊢
      obtain ⟨s', hs, rfl⟩ | ⟨hnone, -⟩ := hcode
      · cases hs
        exact .cons rfl
          (fetches_pushIndirect (m := { m with eax := s.place m.ebp }) henv ha hroom hsrc)
      · cases hnone
    · rw [if_neg harray] at hcode hsrc ⊢
      obtain ⟨s', hs, -⟩ | ⟨-, address, haddress, rfl⟩ := hcode
      · cases hs
      · obtain ⟨s', hp', rfl⟩ := lower_var.1 haddress
        cases hp.symm.trans hp'
        obtain ⟨m₁, hrun₁, hpush⟩ := Symbol.pushes_pushCode (m := m) env
          (Ty.isPointer_of_pointee? ht harray) (by omega)
        exact hpush.fetches_popIndirect henv ha hroom hsrc hrun₁

theorem Expr.PointsTo.run {e : Expr} {a : Word} {slots : List Word} {code : List Instr}
    (h : e.PointsTo ctx m.ebp m.memory a slots) (hcode : e.lower ctx = .ok code)
    (env : Environment) (hroom : 4 ≤ m.esp.toNat) :
    ∃ m', Instr.run env code m = some m' ∧ Pushes m.esp.toNat m m' a m.memory := by
  induction h with
  | @var p s hp ht =>
    obtain ⟨s', hp', rfl⟩ := lower_var.1 hcode
    cases hp.symm.trans hp'
    exact Symbol.pushes_pushCode env ht hroom
  | @addressOf x s hx =>
    obtain ⟨s', hx', rfl⟩ := lower_addressOf.1 hcode
    cases hx.symm.trans hx'
    exact ⟨_, rfl, .of_store (fun _ _ => rfl) hroom (Nat.le_refl _) rfl rfl rfl⟩
  | cast h ih => exact ih (lower_cast.1 hcode)

end Values

/-! ### Places -/

section Places

variable {env : Environment} {m : Machine} {t : Ty} {s : Symbol} {dst : Word}

/-- A primitive that is as large as an aggregate is a word. -/
theorem Ty.width_of_alignedSize_eq {u : Ty} (hp : t.isPrimitive) (hu : ¬ u.isPrimitive)
    (h : t.alignedSize = u.alignedSize) : t.width = .dword := by
  -- The size of an aggregate is a multiple of four.
  have hdvd := u.alignment_dvd_alignedSize
  rw [alignment, if_neg hu, ← h, alignedSize_of_isPrimitive hp] at hdvd
  cases hw : t.width with
  | dword => rfl
  | byte | word =>
    rw [hw] at hdvd
    exact absurd hdvd (by decide)

theorem exec_loadTarget (env : Environment) (m : Machine) (s : Symbol) (r : Reg) :
    (s.loadTarget r).exec env m = some (m.set r (s.target m.ebp m.memory)) := by
  unfold Symbol.loadTarget Symbol.target
  split <;> rfl

theorem delivers_storeCode (henv : env.Copies)
    (hwide : s.type.isPrimitive → s.type.width = .dword) (hroom : 12 ≤ m.esp.toNat)
    (hfits : m.esp.toNat + s.type.alignedSize < 2 ^ 32)
    (hdst : Above (m.esp.toNat + s.type.alignedSize) (s.place m.ebp) s.type.alignedSize) :
    Delivers env s.storeCode m s.type.alignedSize 0 (s.place m.ebp) := by
  by_cases hp : s.type.isPrimitive
  · have hsize : s.type.alignedSize = 4 := by rw [Ty.alignedSize_of_isPrimitive hp, hwide hp]; rfl
    obtain ⟨m', hrun, hesp, hebp, hmem⟩ := s.run_storeCode env m hp
    rw [hwide hp] at hmem
    rw [hsize] at hfits ⊢
    exact delivers_store hrun (hesp.trans (BitVec.add_zero _).symm) hebp hmem hfits
  · rw [Symbol.storeCode, if_neg hp]
    exact delivers_cons_popCopy henv rfl hroom hfits hdst

theorem delivers_storeThrough (henv : env.Copies) (hwide : t.isPrimitive → t.width = .dword)
    (hroom : 12 ≤ m.esp.toNat) (hfits : m.esp.toNat + t.alignedSize < 2 ^ 32)
    (hdst : Above (m.esp.toNat + t.alignedSize) (s.target m.ebp m.memory) t.alignedSize) :
    Delivers env (s.storeThrough t) m t.alignedSize 0 (s.target m.ebp m.memory) := by
  unfold Symbol.storeThrough
  split
  · rename_i hp
    have hsize : t.alignedSize = 4 := by rw [Ty.alignedSize_of_isPrimitive hp, hwide hp]; rfl
    rw [hsize] at hfits ⊢
    rw [hwide hp]
    unfold Symbol.loadTarget Symbol.target
    split
    · exact delivers_store rfl (BitVec.add_zero _).symm rfl rfl hfits
    · exact delivers_store rfl (BitVec.add_zero _).symm rfl rfl hfits
  · exact delivers_cons_popCopy henv (exec_loadTarget env m s .eax) hroom hfits hdst

theorem delivers_storeIndirect (henv : env.Copies) (hwide : t.isPrimitive → t.width = .dword)
    (hroom : 12 ≤ m.esp.toNat) (hfits : m.esp.toNat + t.alignedSize + 4 < 2 ^ 32)
    (haddress : m.memory.load .dword (m.esp + .ofNat 32 t.alignedSize) = dst)
    (hdst : Above (m.esp.toNat + t.alignedSize) dst t.alignedSize) :
    Delivers env t.storeIndirect m t.alignedSize 4 dst := by
  subst haddress
  unfold Ty.storeIndirect
  split
  · rename_i hp
    have hsize : t.alignedSize = 4 := by rw [Ty.alignedSize_of_isPrimitive hp, hwide hp]; rfl
    rw [hsize] at hfits ⊢
    rw [hwide hp]
    refine delivers_store rfl ?_ rfl rfl hfits
    rfl
  · exact delivers_cons_popCopy henv rfl hroom hfits hdst

end Places

/-! ### Statements -/

namespace Stmt

open Gen

/-- The statement stores `value` in the bytes from `dst` on, which hold a value of type `t`: it
declares or assigns a variable, stores through a variable or to an address, or returns from a
function that has an aggregate for a result. To find the place, the words at `slots` are read. -/
inductive StoresTo (g g' : Generator) (base : Word) (mem : Memory) :
    Stmt → Expr → Ty → Word → List Word → Prop where
  | declare {x type init s} (hx : g'.context.lookup x = .ok s) :
      StoresTo g g' base mem (.declare x type (some init)) init s.type (s.place base) []
  | assign {x value s} (hx : g.context.lookup x = .ok s) :
      StoresTo g g' base mem (.assign x value) value s.type (s.place base) []
  | store {p value s t} (hp : g.context.lookup p = .ok s) (ht : s.type.pointee? = some t) :
      StoresTo g g' base mem (.store p value) value t (s.target base mem) [s.place base]
  | storeAt {address value t dst slots} (ht : address.readType g.context = .ok t)
      (ha : address.PointsTo g.context base mem dst slots) :
      StoresTo g g' base mem (.storeAt address value) value t dst slots
  | ret {value s t} (hresult : g.resultType = some t) (ht : ¬ t.isPrimitive)
      (hs : g.context.lookup resultSlot = .ok s) :
      StoresTo g g' base mem (.ret (some value)) value t (mem.load .dword (s.place base))
        [s.place base]

/-- The jump at the end of a `return`. -/
def leaving : Stmt → Code
  | .ret _ => [.instr (.jump .returnPoint)]
  | _ => []

section Store

variable {env : Environment} {m : Machine} {t : Ty} {s : Symbol} {src dst : Word}
  {value : List Instr}

theorem run_storeCode_of_fetches (henv : env.Copies)
    (hwide : s.type.isPrimitive → s.type.width = .dword)
    (hroom : s.type.alignedSize + 12 ≤ m.esp.toNat)
    (hdst : Above m.esp.toNat (s.place m.ebp) s.type.alignedSize)
    (hvalue : Fetches env value m s.type.alignedSize src) :
    ∃ m', Instr.run env (value ++ s.storeCode) m = some m' ∧ m'.esp = m.esp ∧
      Copied m.esp.toNat s.type.alignedSize (s.place m.ebp) src m m' := by
  have hlt := m.esp.isLt
  have hdeliver : ∀ m₁, Grown s.type.alignedSize m m₁ →
      Delivers env s.storeCode m₁ s.type.alignedSize 0 (s.place m.ebp) := by
    intro m₁ hgrown
    have hesp₁ := hgrown.esp
    rw [← hesp₁, ← hgrown.ebp] at hdst
    rw [← hgrown.ebp]
    exact delivers_storeCode henv hwide (by omega) (by omega) hdst
  obtain ⟨m', hrun, hesp, hcopied⟩ := hvalue.append hdeliver
  exact ⟨m', hrun, BitVec.eq_of_toNat_eq hesp, hcopied⟩

theorem run_storeThrough_of_fetches (henv : env.Copies)
    (hwide : t.isPrimitive → t.width = .dword) (hroom : t.alignedSize + 12 ≤ m.esp.toNat)
    (hslot : Above m.esp.toNat (s.place m.ebp) 4)
    (hdst : Above m.esp.toNat (s.target m.ebp m.memory) t.alignedSize)
    (hvalue : Fetches env value m t.alignedSize src) :
    ∃ m', Instr.run env (value ++ s.storeThrough t) m = some m' ∧ m'.esp = m.esp ∧
      Copied m.esp.toNat t.alignedSize (s.target m.ebp m.memory) src m m' := by
  have hlt := m.esp.isLt
  have hdeliver : ∀ m₁, Grown t.alignedSize m m₁ →
      Delivers env (s.storeThrough t) m₁ t.alignedSize 0 (s.target m.ebp m.memory) := by
    intro m₁ hgrown
    have hesp₁ := hgrown.esp
    have htarget : s.target m₁.ebp m₁.memory = s.target m.ebp m.memory := by
      rw [hgrown.ebp]
      exact s.target_congr hslot hgrown.memory
    rw [← hesp₁, ← htarget] at hdst
    rw [← htarget]
    exact delivers_storeThrough henv hwide (by omega) (by omega) hdst
  obtain ⟨m', hrun, hesp, hcopied⟩ := hvalue.append hdeliver
  exact ⟨m', hrun, BitVec.eq_of_toNat_eq hesp, hcopied⟩

theorem run_storeIndirect_of_fetches (henv : env.Copies)
    (hwide : t.isPrimitive → t.width = .dword) (hroom : t.alignedSize + 16 ≤ m.esp.toNat)
    {m₀ : Machine} (hpush : Pushes m.esp.toNat m m₀ dst m.memory)
    (hdst : Above m.esp.toNat dst t.alignedSize) (hsrc : Above m.esp.toNat src t.alignedSize)
    (hvalue : Fetches env value m₀ t.alignedSize src) :
    ∃ m', Instr.run env (value ++ t.storeIndirect) m₀ = some m' ∧ m'.esp = m.esp ∧
      Copied m.esp.toNat t.alignedSize dst src m m' := by
  have hlt := m.esp.isLt
  have hesp₀ := hpush.esp
  have hdeliver : ∀ m₁, Grown t.alignedSize m₀ m₁ →
      Delivers env t.storeIndirect m₁ t.alignedSize 4 dst := by
    intro m₁ hgrown
    have hesp₁ := hgrown.esp
    -- The value has been pushed right below the address.
    have hplace : m₁.esp + .ofNat 32 t.alignedSize = m₀.esp := by
      apply BitVec.eq_of_toNat_eq
      rw [BitVec.toNat_add, BitVec.toNat_ofNat]
      omega
    have haddress : m₁.memory.load .dword (m₁.esp + .ofNat 32 t.alignedSize) = dst := by
      rw [hplace, (above_self (by omega)).load_eq hgrown.memory]
      exact hpush.top
    exact delivers_storeIndirect henv hwide (by omega) (by omega) haddress (hdst.mono (by omega))
  obtain ⟨m', hrun, hesp, hcopied⟩ := hvalue.append hdeliver
  refine ⟨m', hrun, BitVec.eq_of_toNat_eq (by omega), ?_⟩
  exact (hcopied.mono (by omega)).of_agree hpush.ebp hpush.agrees hsrc

theorem run_result_of_fetches (henv : env.Copies) (hroom : t.alignedSize + 12 ≤ m.esp.toNat)
    (hslot : Above m.esp.toNat (s.place m.ebp) 4)
    (hdst : Above m.esp.toNat (m.memory.load .dword (s.place m.ebp)) t.alignedSize)
    (hvalue : Fetches env value m t.alignedSize src) :
    ∃ m', Instr.run env (value ++ ([.load .eax s.address] ++ popCopy t.alignedSize 0 ++
        [.load .eax s.address])) m = some m' ∧ m'.esp = m.esp ∧
      Copied m.esp.toNat t.alignedSize (m.memory.load .dword (s.place m.ebp)) src m m' ∧
      m'.eax = m'.memory.load .dword (s.place m.ebp) := by
  have hlt := m.esp.isLt
  have hdeliver : ∀ m₁, Grown t.alignedSize m m₁ →
      Delivers env (.load .eax s.address :: popCopy t.alignedSize 0) m₁ t.alignedSize 0
        (m.memory.load .dword (s.place m.ebp)) := by
    intro m₁ hgrown
    have hesp₁ := hgrown.esp
    have hload : m₁.memory.load .dword (s.place m₁.ebp) = m.memory.load .dword (s.place m.ebp) := by
      rw [hgrown.ebp]
      exact hslot.load_eq hgrown.memory
    rw [← hesp₁, ← hload] at hdst
    rw [← hload]
    exact delivers_cons_popCopy henv rfl (by omega) (by omega) hdst
  obtain ⟨m', hrun, hesp, hcopied⟩ := hvalue.append hdeliver
  refine ⟨{ m' with eax := m'.memory.load .dword (s.place m'.ebp) }, ?_,
    BitVec.eq_of_toNat_eq hesp, ⟨hcopied.ebp, hcopied.block, hcopied.rest⟩, ?_⟩
  · rw [← List.append_assoc]
    exact Instr.run_append_eq_some.2 ⟨m', hrun, rfl⟩
  · show m'.memory.load .dword (s.place m'.ebp) = _
    rw [hcopied.ebp]

end Store

theorem lookup_of_declare {g g' : Generator} {x : String} {t : Ty} {s : Symbol}
    (h : Returns (Gen.declare x t) g s g') : g'.context.lookup x = .ok s := by
  obtain ⟨hname, hextends⟩ := extends_declare h
  rw [hextends.lookup, List.find?_cons, hname, beq_self_eq_true]
  rfl

/-- **Stores of aggregates copy exactly the value.** Take a statement that stores an aggregate in a
place of the same size. If the value, the place and the variables that hold their addresses lie at
or above the stack pointer, and there is room on the stack, then its code runs to its end. The place
then has the bytes that the value had before, also where the two overlap; all other bytes at or
above the stack pointer are as they were, and so is the stack pointer. A `return` jumps after that,
with the parameter for the result in `eax`: the address of the place, unless the copy has gone over
it. -/
theorem aggregate_store_copies {s : Stmt} {g g' : Generator} {code : Code} {value : Expr} {t u : Ty}
    {dst src : Word} {slots slots' : List Word} {env : Environment} {m : Machine}
    (h : Returns s.lower g code g') (hdst : s.StoresTo g g' m.ebp m.memory value t dst slots)
    (hsrc : value.AggregateAt g.context m.ebp m.memory u src slots')
    (hsize : t.alignedSize = u.alignedSize) (henv : env.Copies)
    (hroom : t.alignedSize + 16 ≤ m.esp.toNat) (hto : Above m.esp.toNat dst t.alignedSize)
    (hfrom : Above m.esp.toNat src t.alignedSize) (hslots : ∀ a ∈ slots, Above m.esp.toNat a 4)
    (hslots' : ∀ a ∈ slots', Above m.esp.toNat a 4) :
    ∃ instrs m', code = Code.ofInstrs instrs ++ s.leaving ∧ Instr.run env instrs m = some m' ∧
      m'.esp = m.esp ∧ Copied m.esp.toNat t.alignedSize dst src m m' ∧
      ∀ r, s = .ret r → ∃ slot, g.context.lookup resultSlot = .ok slot ∧
        m'.eax = m'.memory.load .dword (slot.place m.ebp) ∧
        ((∀ b : Word, (b - slot.place m.ebp).toNat < 4 → t.alignedSize ≤ (b - dst).toNat) →
          m'.eax = dst) := by
  have hu : ¬ u.isPrimitive := by cases hsrc <;> assumption
  have hwide : t.isPrimitive → t.width = .dword := fun hp => Ty.width_of_alignedSize_eq hp hu hsize
  -- The value is fetched from `m`, but from a later state if an address has been pushed before.
  have hfetch : ∀ {m₀ : Machine} {code : List Instr}, m₀.esp.toNat ≤ m.esp.toNat →
      t.alignedSize + 12 ≤ m₀.esp.toNat → m₀.ebp = m.ebp → Agrees m.esp.toNat m₀ m.memory →
      value.lower g.context = .ok code → Fetches env code m₀ t.alignedSize src := by
    intro m₀ code hle hroom₀ hebp hagrees hcode
    have hsrc₀ := hsrc.of_agree hslots' fun b hb => (hagrees b hb).symm
    rw [← hebp] at hsrc₀
    rw [hsize] at hroom₀ hfrom ⊢
    exact hsrc₀.fetches henv hcode hroom₀ (hfrom.mono hle)
  cases hdst with
  | @declare x type init s hx =>
    simp only [lower, returns_bind, returns_ask, returns_evaluate, returns_pure] at h
    obtain ⟨_, _, ⟨-, rfl⟩, _, _, ⟨code, hcode, rfl, rfl⟩, s', _, hd, rfl, rfl⟩ := h
    cases hx.symm.trans (lookup_of_declare hd)
    obtain ⟨m', hrun, hesp, hcopied⟩ := run_storeCode_of_fetches henv hwide (by omega) hto
      (hfetch (Nat.le_refl _) (by omega) rfl (fun _ _ => rfl) hcode)
    exact ⟨code ++ s.storeCode, m', by simp [leaving, Code.ofInstrs], hrun, hesp, hcopied, by simp⟩
  | @assign x value s hx =>
    simp only [lower, returns_bind, returns_lookup, returns_evaluate, returns_pure] at h
    obtain ⟨_, _, ⟨code, hcode, rfl, rfl⟩, s', _, ⟨hx', rfl⟩, rfl, rfl⟩ := h
    cases hx.symm.trans hx'
    obtain ⟨m', hrun, hesp, hcopied⟩ := run_storeCode_of_fetches henv hwide (by omega) hto
      (hfetch (Nat.le_refl _) (by omega) rfl (fun _ _ => rfl) hcode)
    exact ⟨code ++ s.storeCode, m', by simp [leaving, Code.ofInstrs], hrun, hesp, hcopied, by simp⟩
  | @store p value s t hp ht =>
    simp only [lower, returns_bind, returns_lookup] at h
    obtain ⟨s', _, ⟨hp', rfl⟩, h⟩ := h
    cases hp.symm.trans hp'
    simp only [ht, returns_bind, returns_evaluate, returns_pure] at h
    obtain ⟨_, _, ⟨code, hcode, rfl, rfl⟩, rfl, rfl⟩ := h
    obtain ⟨m', hrun, hesp, hcopied⟩ := run_storeThrough_of_fetches henv hwide (by omega)
      (hslots _ List.mem_cons_self) hto
      (hfetch (Nat.le_refl _) (by omega) rfl (fun _ _ => rfl) hcode)
    exact ⟨code ++ s.storeThrough t, m', by simp [leaving, Code.ofInstrs], hrun, hesp, hcopied,
      by simp⟩
  | @storeAt address value t dst slots ht ha =>
    simp only [lower, returns_bind, returns_ask, returns_evaluate, returns_pure] at h
    obtain ⟨t', _, ⟨ht', rfl⟩, _, _, ⟨target, htarget, rfl, rfl⟩, _, _, ⟨code, hcode, rfl, rfl⟩,
      rfl, rfl⟩ := h
    cases ht.symm.trans ht'
    obtain ⟨m₀, hrun₀, hpush⟩ := ha.run htarget env (by omega)
    have hesp₀ := hpush.esp
    obtain ⟨m', hrun, hesp, hcopied⟩ :=
      run_storeIndirect_of_fetches henv hwide hroom hpush hto hfrom
      (hfetch (by omega) (by omega) hpush.ebp hpush.agrees hcode)
    exact ⟨target ++ (code ++ t.storeIndirect), m', by simp [leaving, Code.ofInstrs],
      Instr.run_append_eq_some.2 ⟨m₀, hrun₀, hrun⟩, hesp, hcopied, by simp⟩
  | @ret value s t hresult ht hs =>
    simp only [lower, returns_bind, returns_evaluate, returns_resultCode, returns_pure] at h
    obtain ⟨_, _, ⟨code, hcode, rfl, rfl⟩, take, _, ⟨htake, rfl⟩, rfl, rfl⟩ := h
    have hslot := hslots _ List.mem_cons_self
    rw [hresult, Context.returnCode, if_neg ht, hs] at htake
    cases htake
    obtain ⟨m', hrun, hesp, hcopied, heax⟩ := run_result_of_fetches henv (by omega) hslot hto
      (hfetch (Nat.le_refl _) (by omega) rfl (fun _ _ => rfl) hcode)
    refine ⟨_, m', ?_, hrun, hesp, hcopied, fun r hr => ⟨s, hs, heax, fun hapart => ?_⟩⟩
    · simp [leaving, Code.ofInstrs]
    · rw [heax]
      exact Memory.load_congr fun b hb => hcopied.rest b (hslot b hb) (hapart b hb)

end Stmt

/-- A `memcpy` that copies as if all bytes were read first, and clears the registers that it may
use. -/
def copyingEnvironment : Environment where
  place _ := 0
  call _ m :=
    let dst := m.memory.load .dword m.esp
    let src := m.memory.load .dword (m.esp + 4)
    let n := (m.memory.load .dword (m.esp + 8)).toNat
    some { m with
      eax := 0
      ecx := 0
      edx := 0
      memory := fun b => if (b - dst).toNat < n then m.memory (src + (b - dst)) else m.memory b }

theorem copies_copyingEnvironment : copyingEnvironment.Copies := by
  rintro m dst src n rfl rfl rfl - - -
  refine ⟨_, rfl, rfl, rfl, fun d hd => ?_, fun b _ hb => if_neg (Nat.not_lt.2 hb)⟩
  show (if _ then _ else _) = _
  rw [add_sub_cancel_left, if_pos hd]

namespace Stmt

open Gen

/-- A local pointer to an aggregate of eight bytes. -/
def localPointer : Symbol :=
  ⟨"p", .pointer (.struct "S" 8), 4⟩

/-- The parameter for such a result. -/
def resultPointer : Symbol :=
  ⟨resultSlot, .pointer (.struct "S" 8), -8⟩

/-- In a function with such a result. -/
def resultSample : Generator where
  context :=
    { scopes :=
        { scopes :=
            [{ Scope.empty 1 .function 0 with symbols := [localPointer] },
             { Scope.empty 0 .parameter 0 with symbols := [resultPointer] }] } }
  resultType := some (.struct "S" 8)

/-- Here `p` holds `0xF80`, and the result goes to `dst`. -/
def resultMachine (dst : Word) : Machine :=
  { Expr.sampleMachine with
    memory := (Expr.sampleMachine.memory.store .dword 0xFFC 0xF80).store .dword 0x1008 dst }

/-- `return *p`. -/
def returnTarget : Stmt :=
  .ret (some (.deref (.var "p")))

theorem storesTo_returnTarget (g' : Generator) (dst : Word) :
    returnTarget.StoresTo resultSample g' (resultMachine dst).ebp (resultMachine dst).memory
      (.deref (.var "p")) (.struct "S" 8) dst [0x1008] := by
  have hto : returnTarget.StoresTo resultSample g' (resultMachine dst).ebp
      (resultMachine dst).memory _ (.struct "S" 8) _ _ :=
    .ret rfl (by decide) (show resultSample.context.lookup resultSlot = .ok resultPointer from rfl)
  have hslot : resultPointer.place (resultMachine dst).ebp = 0x1008 := rfl
  have hdst : (resultMachine dst).memory.load .dword 0x1008 = dst := by
    rw [resultMachine, Memory.load_store, Width.truncate_dword]
  rwa [hslot, hdst] at hto

theorem aggregateAt_returnTarget (dst : Word) :
    (Expr.deref (.var "p")).AggregateAt resultSample.context (resultMachine dst).ebp
      (resultMachine dst).memory (.struct "S" 8) 0xF80 [0xFFC] := by
  have hfrom : (Expr.deref (.var "p")).AggregateAt resultSample.context (resultMachine dst).ebp
      (resultMachine dst).memory (.struct "S" 8) _ _ :=
    .deref (show resultSample.context.lookup "p" = .ok localPointer from rfl) rfl (by decide)
  have hslot : localPointer.place (resultMachine dst).ebp = 0xFFC :=
    show localPointer.place 0x1000 = 0xFFC by decide
  have hsrc : (resultMachine dst).memory.load .dword 0xFFC = 0xF80 := by
    refine (Memory.load_congr fun b hb => if_neg ?_).trans (Memory.load_store ..)
    replace hb : (b - 0xFFC).toNat < 4 := hb
    show ¬ (b - 0x1008).toNat < 4
    bv_omega
  rw [Symbol.target] at hfrom
  rwa [hslot, hsrc] at hfrom

theorem above_resultMachine {dst a : Word} {n : Nat} (ha : 0xF00 ≤ a.toNat) (hlt : a.toNat < 0x2000)
    (hn : n ≤ 8) : Above (resultMachine dst).esp.toNat a n := by
  intro b hb
  show 0xF00 ≤ b.toNat
  bv_omega

/-- `return *p` where the last half of `*p` is the first half of the result. -/
theorem aggregate_store_copies_of_overlap : ∃ code g' instrs m',
    Returns returnTarget.lower resultSample code g' ∧
    code = Code.ofInstrs instrs ++ [.instr (.jump .returnPoint)] ∧
    Instr.run copyingEnvironment instrs (resultMachine 0xF84) = some m' ∧ m'.esp = 0xF00 ∧
    Copied 0xF00 8 0xF84 0xF80 (resultMachine 0xF84) m' ∧ m'.eax = 0xF84 := by
  obtain ⟨code, g', h⟩ : ∃ code g', Returns returnTarget.lower resultSample code g' := ⟨_, _, rfl⟩
  have hsize : (Ty.struct "S" 8).alignedSize = 8 := by decide
  have hslot : resultPointer.place (resultMachine 0xF84).ebp = 0x1008 := by decide
  have habove : ∀ (a : Word) (n : Nat), 0xF00 ≤ a.toNat → a.toNat < 0x2000 → n ≤ 8 →
      Above (resultMachine 0xF84).esp.toNat a n := fun _ _ => above_resultMachine
  obtain ⟨instrs, m', hcode, hrun, hesp, hcopied, hresult⟩ := aggregate_store_copies h
    (storesTo_returnTarget g' _) (aggregateAt_returnTarget _) rfl
    copies_copyingEnvironment (by decide) (habove _ _ (by decide) (by decide) (by decide))
    (habove _ _ (by decide) (by decide) (by decide))
    (List.forall_mem_singleton.2 (habove _ _ (by decide) (by decide) (by decide)))
    (List.forall_mem_singleton.2 (habove _ _ (by decide) (by decide) (by decide)))
  obtain ⟨slot, hlookup, -, heax⟩ := hresult _ rfl
  cases hlookup
  refine ⟨code, g', instrs, m', h, hcode, hrun, hesp, hcopied, heax fun b hb => ?_⟩
  have hb : (b - resultPointer.place (resultMachine 0xF84).ebp).toNat < 4 := hb
  rw [hslot] at hb
  rw [hsize]
  bv_omega

/-- **A result may go over its own address.** The parameter for the result is at `0x1008` and holds
`0x1008`. All that `return *p` reads or writes lies above the stack pointer, and the result is
copied there, but it ends with the first four bytes of the result in `eax`. -/
theorem result_over_its_address : ∃ code g' instrs m',
    Returns returnTarget.lower resultSample code g' ∧
    returnTarget.StoresTo resultSample g' 0x1000 (resultMachine 0x1008).memory (.deref (.var "p"))
      (.struct "S" 8) 0x1008 [0x1008] ∧
    (Expr.deref (.var "p")).AggregateAt resultSample.context 0x1000 (resultMachine 0x1008).memory
      (.struct "S" 8) 0xF80 [0xFFC] ∧
    (∀ a ∈ [0x1008, 0xF80, 0xFFC], Above (resultMachine 0x1008).esp.toNat a 8) ∧
    copyingEnvironment.Copies ∧
    code = Code.ofInstrs instrs ++ [.instr (.jump .returnPoint)] ∧
    Instr.run copyingEnvironment instrs (resultMachine 0x1008) = some m' ∧
    m'.eax = (resultMachine 0x1008).memory.load .dword 0xF80 ∧ m'.eax ≠ 0x1008 := by
  obtain ⟨code, g', h⟩ : ∃ code g', Returns returnTarget.lower resultSample code g' := ⟨_, _, rfl⟩
  obtain ⟨instrs, hcode, hinstrs⟩ : ∃ instrs, code = Code.ofInstrs instrs ++
      [.instr (.jump .returnPoint)] ∧ instrs = (localPointer.pushCode ++ .pop .eax :: pushCopy 8) ++
        (.load .eax resultPointer.address :: popCopy 8 0 ++
          [.load .eax resultPointer.address]) := by
    cases h
    exact ⟨_, rfl, rfl⟩
  obtain ⟨m', hrun, heax⟩ : ∃ m', Instr.run copyingEnvironment instrs (resultMachine 0x1008) =
      some m' ∧ m'.eax = 0x83828180 := by
    subst hinstrs
    exact ⟨_, rfl, by decide +kernel⟩
  have hfirst : (resultMachine 0x1008).memory.load .dword 0xF80 = 0x83828180 := by decide
  refine ⟨code, g', instrs, m', h, storesTo_returnTarget g' _, aggregateAt_returnTarget _, ?_,
    copies_copyingEnvironment, hcode, hrun, heax.trans hfirst.symm, ?_⟩
  · simp only [List.forall_mem_cons]
    exact ⟨above_resultMachine (by decide) (by decide) (by decide),
      above_resultMachine (by decide) (by decide) (by decide),
      above_resultMachine (by decide) (by decide) (by decide), List.forall_mem_nil _⟩
  · rw [heax]
    decide

end Stmt

end GLang
