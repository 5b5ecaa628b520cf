import Nxlog.Core.Res

/-!
# Bytes, little-endian integers and bounded memory

A pointer into a buffer is modelled by the list of bytes from that pointer to
the end of what it may touch: `p + k` is `mem.drop k`, and a read past the end
of the list is a `fault`. A size argument that travels with the pointer is a
separate number, as in the source, so a wrong check against it shows up as a
fault (or as a read of bytes that do not belong to the message).

* `leBytes` / `leNat`: fixed-width little-endian integers.
* `rd`, `rdBytes`, `rdLe`, `rdOctets`: reads. On a list that starts with what
  is wanted they return it (`rdBytes_drop`, `rdLe_drop`), and what they return
  does not depend on bytes behind it (`rdBytes_mono`).
* `put`: one write at the end of what was already written to a bounded buffer.
-/
namespace Nxlog
open Res List

abbrev Bytes := List UInt8

/-- The bytes of a literal of the source. -/
def ascii (s : String) : Bytes := s.toList.map fun c => UInt8.ofNat c.toNat

/-- `n` bytes exactly (a C array `uint8_t x[n]`). -/
abbrev Octets (n : Nat) := { bs : Bytes // bs.length = n }

/-! ## Little-endian integers -/

/-- The low `k` bytes of `n`, lowest first. -/
def leBytes : Nat → Nat → Bytes
  | 0, _ => []
  | k + 1, n => UInt8.ofNat n :: leBytes k (n / 256)

/-- The number a little-endian byte string stands for. -/
def leNat : Bytes → Nat
  | [] => 0
  | b :: bs => b.toNat + 256 * leNat bs

variable {mem t : Bytes} {o n k : Nat}

@[simp] theorem leBytes_length (k n : Nat) : (leBytes k n).length = k := by
  induction k generalizing n with
  | zero => rfl
  | succ k ih => simp [leBytes, ih]

theorem leNat_lt (bs : Bytes) : leNat bs < 256 ^ bs.length := by
  induction bs with
  | nil => simp [leNat]
  | cons b bs ih =>
    have := b.toNat_lt
    simp only [leNat, length_cons, Nat.pow_succ]
    omega

theorem leNat_take_lt (bs : Bytes) (k : Nat) : leNat (bs.take k) < 256 ^ k :=
  Nat.lt_of_lt_of_le (leNat_lt _) (Nat.pow_le_pow_right (by decide) (length_take_le _ _))

theorem leNat_leBytes (k n : Nat) : leNat (leBytes k n) = n % 256 ^ k := by
  induction k generalizing n with
  | zero => simp [leBytes, leNat, Nat.mod_one]
  | succ k ih =>
    simp only [leBytes, leNat, ih, UInt8.toNat_ofNat']
    rw [show 256 ^ (k + 1) = 256 * 256 ^ k from Nat.pow_succ', Nat.mod_mul]

theorem leNat_leBytes_of_lt {k n : Nat} (h : n < 256 ^ k) : leNat (leBytes k n) = n := by
  rw [leNat_leBytes, Nat.mod_eq_of_lt h]

theorem leBytes_leNat (bs : Bytes) : leBytes bs.length (leNat bs) = bs := by
  induction bs with
  | nil => rfl
  | cons b bs ih =>
    have hb := b.toNat_lt
    have hd : (b.toNat + 256 * leNat bs) / 256 = leNat bs := by omega
    have hm : UInt8.ofNat (b.toNat + 256 * leNat bs) = b := by
      apply UInt8.toNat_inj.mp
      rw [UInt8.toNat_ofNat']
      omega
    simp only [length_cons, leBytes, leNat, hd, hm, ih]

/-- A byte string of known length is the encoding of the number it stands for. -/
theorem leBytes_leNat_of_length {k : Nat} {bs : Bytes} (h : bs.length = k) : leBytes k (leNat bs) = bs := by
  subst h; exact leBytes_leNat bs

/-! ## Reads -/

/-- `mem[o]`. -/
def rd (mem : Bytes) (o : Nat) : Res UInt8 :=
  match mem[o]? with
  | some b => .ok b
  | none => Res.fault

/-- `n` bytes from `mem + o` (a `memcpy` out of the buffer). -/
def rdBytes (mem : Bytes) (o n : Nat) : Res Bytes :=
  if o + n ≤ mem.length then .ok ((mem.drop o).take n) else Res.fault

/-- A `k`-byte little-endian integer at `mem + o`. -/
def rdLe (mem : Bytes) (o k : Nat) : Res Nat := do
  let bs ← rdBytes mem o k
  return leNat bs

def rdOctets (mem : Bytes) (o n : Nat) : Res (Octets n) :=
  if h : o + n ≤ mem.length then .ok ⟨(mem.drop o).take n, by simp; omega⟩ else Res.fault

theorem length_of_drop {mem bs t : Bytes} (h : mem.drop o = bs ++ t) (ho : o ≤ mem.length) :
    mem.length = o + bs.length + t.length := by
  have := congrArg length h
  simp at this; omega

theorem rdBytes_drop {mem bs t : Bytes} (h : mem.drop o = bs ++ t) (ho : o ≤ mem.length) :
    rdBytes mem o bs.length = .ok bs := by
  have := length_of_drop h ho
  rw [rdBytes, if_pos (by omega), h, take_left' rfl]

theorem rdLe_drop (h : mem.drop o = leBytes k n ++ t)
    (ho : o ≤ mem.length) (hn : n < 256 ^ k) : rdLe mem o k = .ok n := by
  have hb := rdBytes_drop h ho
  rw [leBytes_length] at hb
  simp [rdLe, hb, leNat_leBytes_of_lt hn]

theorem rdOctets_drop {x : Octets n} (h : mem.drop o = x.1 ++ t) (ho : o ≤ mem.length) :
    rdOctets mem o n = .ok x := by
  have := length_of_drop h ho
  have hx := x.2
  rw [rdOctets, dif_pos (by omega)]
  congr 1
  apply Subtype.ext
  simp only [h]
  exact take_left' hx

theorem rd_drop {b : UInt8} (h : mem.drop o = b :: t) : rd mem o = .ok b := by
  have : (mem.drop o)[0]? = some b := by rw [h]; rfl
  rw [getElem?_drop, Nat.add_zero] at this
  simp [rd, this]

theorem rd_ok (h : o < mem.length) : rd mem o = .ok mem[o] := by
  simp [rd, getElem?_eq_getElem h]

theorem rdBytes_ok (h : o + n ≤ mem.length) :
    rdBytes mem o n = .ok ((mem.drop o).take n) := if_pos h

theorem rdLe_ok (h : o + n ≤ mem.length) : rdLe mem o n = .ok (leNat ((mem.drop o).take n)) := by
  simp [rdLe, rdBytes_ok h]

theorem rdLe_fault (h : ¬ o + n ≤ mem.length) : rdLe mem o n = Res.fault := by
  simp [rdLe, rdBytes, h]

theorem rdBytes_length {mem bs : Bytes} (h : rdBytes mem o n = .ok bs) :
    o + n ≤ mem.length ∧ bs = (mem.drop o).take n := by
  unfold rdBytes at h
  split at h
  · cases h; exact ⟨‹_›, rfl⟩
  · cases h

theorem rdLe_length (h : rdLe mem o k = .ok n) : o + k ≤ mem.length ∧ n = leNat ((mem.drop o).take k) := by
  obtain ⟨bs, hb, hn⟩ := bind_eq_ok.mp h
  obtain ⟨hle, rfl⟩ := rdBytes_length hb
  cases hn
  exact ⟨hle, rfl⟩

theorem drop_of_drop {mem a t : Bytes} (h : mem.drop o = a ++ t) : mem.drop (o + a.length) = t := by
  rw [← drop_drop, h, drop_left' rfl]

/-! ### Bytes behind what is read do not matter -/

theorem rd_mono {b : UInt8} (h : rd mem o = .ok b) : rd (mem ++ t) o = .ok b := by
  unfold rd at h ⊢
  cases hg : mem[o]? with
  | none => rw [hg] at h; cases h
  | some x =>
    rw [hg] at h
    have hlt := (List.getElem?_eq_some_iff.mp hg).1
    rw [List.getElem?_append_left hlt, hg]
    exact h

theorem rdBytes_mono {mem t bs : Bytes} (h : rdBytes mem o n = .ok bs) : rdBytes (mem ++ t) o n = .ok bs := by
  unfold rdBytes at h ⊢
  split at h
  · rename_i hle
    rw [if_pos (by simp; omega), ← h, drop_append_of_le_length (by omega),
      take_append_of_le_length (by simp; omega)]
  · cases h

theorem rdLe_mono (h : rdLe mem o k = .ok n) : rdLe (mem ++ t) o k = .ok n := by
  unfold rdLe at h ⊢
  obtain ⟨bs, hb, hn⟩ := bind_eq_ok.mp h
  rw [rdBytes_mono hb]
  exact hn

theorem rdOctets_mono {x : Octets n} (h : rdOctets mem o n = .ok x) : rdOctets (mem ++ t) o n = .ok x := by
  unfold rdOctets at h ⊢
  split at h
  · rename_i hle
    simp only [Except.ok.injEq] at h
    rw [dif_pos (by simp; omega), ← h]
    congr 2
    rw [drop_append_of_le_length (by omega), take_append_of_le_length (by simp; omega)]
  · cases h

/-! ## Writes -/

/-- Write `bs` at `buf + out.length`, where `out` is what was written before and
`buf` has room for `size` bytes. -/
def put (size : Nat) (out bs : Bytes) : Res Bytes :=
  if out.length + bs.length ≤ size then .ok (out ++ bs) else Res.fault

theorem put_ok {size : Nat} {out bs : Bytes} (h : out.length + bs.length ≤ size) :
    put size out bs = .ok (out ++ bs) := if_pos h

end Nxlog
