import Mathlib.Data.Nat.Digits.Defs
import Mathlib.Data.BitVec
import Mathlib.Data.List.GetD
import Mathlib.Tactic.Ring

/-!
# Byte memory

A memory gives a byte to every address of `w` bits, and addresses wrap. `read`
and `write` move a run of bytes; `Apart` says that two runs do not overlap, the
wrap included. The second half reads and writes little-endian words.

* `Memory.read_write_within`: a read inside the bytes just written gives them.
* `Memory.read_write_apart`: a read of an apart run does not see the write.
* `ofBytes_toBytes`: a word survives its bytes.
-/

namespace RiscvLinux.Lib

/-- A byte at every address of `w` bits. -/
abbrev Memory (w : Nat) : Type := BitVec w → UInt8

variable {w : Nat}

/-- The `n` bytes from `a` on. -/
def Memory.read (m : Memory w) (a : BitVec w) (n : Nat) : List UInt8 :=
  (List.range n).map fun i => m (a + BitVec.ofNat w i)

/-- The memory with `bs` at `a`: the byte at `p` is the one of `bs` at the distance
from `a` to `p`, where `bs` reaches that far. -/
def Memory.write (m : Memory w) (a : BitVec w) (bs : List UInt8) : Memory w :=
  fun p => bs.getD (p - a).toNat (m p)

/-- The `n` bytes from `a` and the `k` bytes from `b` have no address in common. -/
def Apart (a : BitVec w) (n : Nat) (b : BitVec w) (k : Nat) : Prop :=
  n ≤ (b - a).toNat ∧ k ≤ (a - b).toNat

instance (a : BitVec w) (n : Nat) (b : BitVec w) (k : Nat) : Decidable (Apart a n b k) :=
  inferInstanceAs (Decidable (_ ∧ _))

/-! ## Distances -/

/-- The distance of an address from the start of the run it is counted in. -/
theorem toNat_add_ofNat_sub {a : BitVec w} {i : Nat} (small : i < 2 ^ w) :
    (a + BitVec.ofNat w i - a).toNat = i := by
  rw [BitVec.add_comm, BitVec.add_sub_cancel, BitVec.toNat_ofNat, Nat.mod_eq_of_lt small]

/-- Two different addresses are a whole turn of the memory away from each other. -/
theorem toNat_sub_add_toNat_sub {a b : BitVec w} (differ : a ≠ b) :
    (a - b).toNat + (b - a).toNat = 2 ^ w := by
  have ha := a.isLt
  have hb := b.isLt
  have unequal : a.toNat ≠ b.toNat := fun same => differ (BitVec.eq_of_toNat_eq same)
  rw [BitVec.toNat_sub, BitVec.toNat_sub]
  rcases Nat.lt_or_gt_of_ne unequal with below | above
  · rw [Nat.mod_eq_of_lt (by omega), show 2 ^ w - a.toNat + b.toNat = b.toNat - a.toNat + 2 ^ w by
      omega, Nat.add_mod_right, Nat.mod_eq_of_lt (by omega)]
    omega
  · rw [show 2 ^ w - b.toNat + a.toNat = a.toNat - b.toNat + 2 ^ w by omega, Nat.add_mod_right,
      Nat.mod_eq_of_lt (by omega), Nat.mod_eq_of_lt (by omega)]
    omega

/-- The distance of an address from a later start. -/
theorem toNat_sub_add {a p : BitVec w} {i : Nat} (beyond : i ≤ (p - a).toNat) :
    (p - (a + BitVec.ofNat w i)).toNat = (p - a).toNat - i := by
  have small := (p - a).isLt
  have shift : p - (a + BitVec.ofNat w i) = p - a - BitVec.ofNat w i := by ring
  have fits : i % 2 ^ w = i := Nat.mod_eq_of_lt (by omega)
  rw [shift, BitVec.toNat_sub_of_le (by rw [BitVec.le_def, BitVec.toNat_ofNat, fits]; exact beyond),
    BitVec.toNat_ofNat, fits]

theorem Apart.symm {a b : BitVec w} {n k : Nat} (apart : Apart a n b k) : Apart b k a n :=
  ⟨apart.2, apart.1⟩

/-- An address of the second run is at least as far from the first as the first is long. -/
theorem Apart.distance_le {a b : BitVec w} {n k i : Nat} (apart : Apart a n b k) (inside : i < k) :
    n ≤ (b + BitVec.ofNat w i - a).toNat := by
  rcases apart with ⟨far, back⟩
  have differ : a ≠ b := by
    intro same
    subst same
    rw [BitVec.sub_self, BitVec.toNat_zero] at back
    omega
  have turn := toNat_sub_add_toNat_sub differ
  have small : (a - b).toNat < 2 ^ w := (a - b).isLt
  have shift : b + BitVec.ofNat w i - a = b - a + BitVec.ofNat w i := by ring
  have fits : i % 2 ^ w = i := Nat.mod_eq_of_lt (by omega)
  rw [shift, BitVec.toNat_add, BitVec.toNat_ofNat, fits, Nat.mod_eq_of_lt (by omega)]
  omega

/-- A part of a run is apart from what the run is apart from. -/
theorem Apart.part {a b : BitVec w} {n k i j : Nat} (apart : Apart a n b k) (inside : i + j ≤ k)
    (some_bytes : 0 < j) : Apart a n (b + BitVec.ofNat w i) j := by
  refine ⟨apart.distance_le (by omega), ?_⟩
  rcases apart with ⟨-, back⟩
  have small := (a - b).isLt
  rw [toNat_sub_add (by omega)]
  omega

/-- Two parts of one run that follow each other are apart. -/
theorem apart_of_offsets {a : BitVec w} {i n j k : Nat} (before : i + n ≤ j)
    (some_bytes : 0 < n) (inside : j + k ≤ 2 ^ w + i) (small : j < 2 ^ w) :
    Apart (a + BitVec.ofNat w i) n (a + BitVec.ofNat w j) k := by
  have hi : i % 2 ^ w = i := Nat.mod_eq_of_lt (by omega)
  have hj : j % 2 ^ w = j := Nat.mod_eq_of_lt (by omega)
  have forward : a + BitVec.ofNat w j - (a + BitVec.ofNat w i)
      = BitVec.ofNat w j - BitVec.ofNat w i := by ring
  have backward : a + BitVec.ofNat w i - (a + BitVec.ofNat w j)
      = BitVec.ofNat w i - BitVec.ofNat w j := by ring
  constructor
  · have below : BitVec.ofNat w i ≤ BitVec.ofNat w j := by
      rw [BitVec.le_def]
      simp only [BitVec.toNat_ofNat]
      omega
    rw [forward, BitVec.toNat_sub_of_le below]
    simp only [BitVec.toNat_ofNat, hi, hj]
    omega
  · rw [backward, BitVec.toNat_sub]
    simp only [BitVec.toNat_ofNat, hi, hj]
    rw [Nat.mod_eq_of_lt (by omega)]
    omega

/-! ## Reading and writing -/

@[simp] theorem Memory.length_read (m : Memory w) (a : BitVec w) (n : Nat) :
    (m.read a n).length = n := by
  simp [read]

@[simp] theorem Memory.read_zero (m : Memory w) (a : BitVec w) : m.read a 0 = [] :=
  rfl

@[simp] theorem Memory.write_nil (m : Memory w) (a : BitVec w) : m.write a [] = m :=
  rfl

theorem Memory.read_congr {m m' : Memory w} {a : BitVec w} {n : Nat}
    (agree : ∀ i < n, m (a + BitVec.ofNat w i) = m' (a + BitVec.ofNat w i)) :
    m.read a n = m'.read a n :=
  List.map_congr_left fun i inside => agree i (List.mem_range.mp inside)

/-- A read is one read after another. -/
theorem Memory.read_add (m : Memory w) (a : BitVec w) (n k : Nat) :
    m.read a (n + k) = m.read a n ++ m.read (a + BitVec.ofNat w n) k := by
  simp only [read, List.range_add, List.map_append, List.map_map]
  congr 1
  refine List.map_congr_left fun i _ => ?_
  rw [Function.comp_apply, BitVec.ofNat_add, BitVec.add_assoc]

/-- A part of a read is a read. -/
theorem Memory.read_part (m : Memory w) (a : BitVec w) {i n k : Nat} (inside : i + n ≤ k) :
    m.read (a + BitVec.ofNat w i) n = ((m.read a k).drop i).take n := by
  obtain ⟨rest, rfl⟩ := Nat.exists_eq_add_of_le inside
  rw [Nat.add_assoc, read_add, read_add, List.drop_left' (length_read m a i),
    List.take_left' (length_read m _ n)]

/-- A byte at a distance the written bytes do not reach is as before. -/
theorem Memory.write_apply_of_le {m : Memory w} {a p : BitVec w} {bs : List UInt8}
    (far : bs.length ≤ (p - a).toNat) : m.write a bs p = m p := by
  rw [write, List.getD_eq_getElem?_getD, List.getElem?_eq_none far, Option.getD_none]

/-- A read inside the bytes just written gives them. -/
theorem Memory.read_write_within {m : Memory w} {a : BitVec w} {bs : List UInt8} {i n : Nat}
    (inside : i + n ≤ bs.length) (fits : bs.length ≤ 2 ^ w) :
    (m.write a bs).read (a + BitVec.ofNat w i) n = (bs.drop i).take n := by
  refine List.ext_getElem (by simp only [length_read, List.length_take, List.length_drop]; omega) ?_
  intro j hj _
  rw [length_read] at hj
  have distance : (a + BitVec.ofNat w i + BitVec.ofNat w j - a).toNat = i + j := by
    rw [BitVec.add_assoc, ← BitVec.ofNat_add, toNat_add_ofNat_sub (by omega)]
  simp only [read, write, List.getElem_map, List.getElem_range, distance, List.getElem_take,
    List.getElem_drop]
  rw [List.getD_eq_getElem?_getD, List.getElem?_eq_getElem (by omega), Option.getD_some]

/-- What is written is read back. -/
theorem Memory.read_write_same {m : Memory w} {a : BitVec w} {bs : List UInt8}
    (fits : bs.length ≤ 2 ^ w) : (m.write a bs).read a bs.length = bs := by
  have whole := read_write_within (m := m) (a := a) (i := 0) (n := bs.length) (by omega) fits
  rwa [BitVec.add_zero, List.drop_zero, List.take_length] at whole

/-- A read of a run apart from the written one does not see the write. -/
theorem Memory.read_write_apart {m : Memory w} {a b : BitVec w} {bs : List UInt8} {n : Nat}
    (apart : Apart a bs.length b n) : (m.write a bs).read b n = m.read b n :=
  read_congr fun _ inside => write_apply_of_le (apart.distance_le inside)

/-- Writing what is there changes nothing. -/
theorem Memory.write_read (m : Memory w) (a : BitVec w) (n : Nat) : m.write a (m.read a n) = m := by
  funext p
  rcases Nat.lt_or_ge (p - a).toNat n with inside | beyond
  · rw [write, List.getD_eq_getElem?_getD, List.getElem?_eq_getElem (by rwa [length_read]),
      Option.getD_some]
    simp only [read, List.getElem_map, List.getElem_range, BitVec.ofNat_toNat, BitVec.setWidth_eq]
    rw [BitVec.add_comm, BitVec.sub_add_cancel]
  · exact write_apply_of_le (by rwa [length_read])

/-- A write is a longer write that puts back what is there. -/
theorem Memory.write_eq_write_append (m : Memory w) (a : BitVec w) (bs : List UInt8) (k : Nat) :
    m.write a bs = m.write a (bs ++ m.read (a + BitVec.ofNat w bs.length) k) := by
  funext p
  rcases Nat.lt_or_ge (p - a).toNat bs.length with inside | beyond
  · rw [write, write, List.getD_append _ _ _ _ inside]
  · rw [write_apply_of_le beyond, write, List.getD_append_right _ _ _ _ beyond]
    have same := congrFun (write_read m (a + BitVec.ofNat w bs.length) k) p
    rw [write, toNat_sub_add beyond] at same
    exact same.symm

/-- Two writes of one length to one place are equal only if they write the same. -/
theorem Memory.write_inj {m : Memory w} {a : BitVec w} {bs cs : List UInt8}
    (length : bs.length = cs.length) (fits : bs.length ≤ 2 ^ w)
    (same : m.write a bs = m.write a cs) : bs = cs := by
  have back := read_write_same (m := m) (a := a) fits
  rw [same, length, read_write_same (by omega)] at back
  exact back.symm

/-- Two writes of which the second goes on where the first ends. -/
theorem Memory.write_write (m : Memory w) (a : BitVec w) {bs cs : List UInt8}
    (fits : bs.length + cs.length ≤ 2 ^ w) :
    (m.write a bs).write (a + BitVec.ofNat w bs.length) cs = m.write a (bs ++ cs) := by
  funext p
  rcases Nat.lt_or_ge (p - a).toNat bs.length with inside | beyond
  · have small := (p - a).isLt
    have shift : p - (a + BitVec.ofNat w bs.length) = p - a - BitVec.ofNat w bs.length := by ring
    -- The second write starts more than a whole turn before the byte.
    have fitsIn : bs.length % 2 ^ w = bs.length ∨ cs.length = 0 := by
      rcases Nat.lt_or_ge bs.length (2 ^ w) with less | all
      · exact .inl (Nat.mod_eq_of_lt less)
      · exact .inr (by omega)
    have far : cs.length ≤ (p - (a + BitVec.ofNat w bs.length)).toNat := by
      rcases fitsIn with whole | none
      · rw [shift, BitVec.toNat_sub, BitVec.toNat_ofNat, whole, Nat.mod_eq_of_lt (by omega)]
        omega
      · omega
    rw [write_apply_of_le far, write, write, List.getD_append _ _ _ _ inside]
  · rw [write, write_apply_of_le beyond, toNat_sub_add beyond, write,
      List.getD_append_right _ _ _ _ beyond]

/-! ## Copies

The first bytes of a run have been copied to a run apart from it. -/

section Copies

variable {m : Memory w} {a b : BitVec w} {i j k n : Nat}

/-- What is still to be copied is as before. -/
theorem Memory.read_copied (apart : Apart b n a n) (done : i ≤ n) (inside : j + k ≤ n) :
    (m.write b (m.read a i)).read (a + BitVec.ofNat w j) k = m.read (a + BitVec.ofNat w j) k := by
  refine read_congr fun q below => write_apply_of_le ?_
  rw [length_read, BitVec.add_assoc, ← BitVec.ofNat_add]
  exact done.trans (apart.distance_le (by omega))

/-- Some bytes more. -/
theorem Memory.copied_next (fits : i + k ≤ 2 ^ w) :
    (m.write b (m.read a i)).write (b + BitVec.ofNat w i) (m.read (a + BitVec.ofNat w i) k)
      = m.write b (m.read a (i + k)) := by
  have written := @write_write _ m b (m.read a i) (m.read (a + BitVec.ofNat w i) k)
    (by simpa only [length_read] using fits)
  rw [length_read] at written
  rw [written, ← read_add]

end Copies

/-! ## Little-endian words -/

/-- The `n` low bytes of a word, the lowest first. -/
def toBytes (n : Nat) (v : BitVec w) : List UInt8 :=
  (List.range n).map fun i => UInt8.ofNat (v.toNat / 256 ^ i)

/-- The word of `w` bits with the given bytes, the lowest first. -/
def ofBytes (w : Nat) (bs : List UInt8) : BitVec w :=
  BitVec.ofNat w (Nat.ofDigits 256 (bs.map UInt8.toNat))

@[simp] theorem length_toBytes (n : Nat) (v : BitVec w) : (toBytes n v).length = n := by
  simp [toBytes]

theorem ofDigits_bytes (n k : Nat) :
    Nat.ofDigits 256 ((List.range n).map fun i => k / 256 ^ i % 256) = k % 256 ^ n := by
  induction n with
  | zero => simp [Nat.mod_one]
  | succ n ih =>
    rw [List.range_succ, List.map_append, Nat.ofDigits_append, ih, List.length_map,
      List.length_range, List.map_singleton, Nat.ofDigits_singleton, Nat.pow_succ, Nat.mod_mul]

/-- A word survives its bytes, if they are enough for its width. -/
@[simp] theorem ofBytes_toBytes {n : Nat} (wide : w ≤ 8 * n) (v : BitVec w) :
    ofBytes w (toBytes n v) = v := by
  have bytes : (toBytes n v).map UInt8.toNat
      = (List.range n).map fun i => v.toNat / 256 ^ i % 256 := by
    rw [toBytes, List.map_map]
    exact List.map_congr_left fun i _ => UInt8.toNat_ofNat
  have bound : v.toNat < 256 ^ n :=
    calc v.toNat < 2 ^ w := v.isLt
      _ ≤ 2 ^ (8 * n) := Nat.pow_le_pow_right (by omega) wide
      _ = 256 ^ n := by rw [Nat.pow_mul]
  rw [ofBytes, bytes, ofDigits_bytes, Nat.mod_eq_of_lt bound, BitVec.ofNat_toNat,
    BitVec.setWidth_eq]

/-- The bytes of a word are those of its low part and then those of the rest. -/
theorem toBytes_add (n k : Nat) (v : BitVec w) :
    toBytes (n + k) v = toBytes n v ++ toBytes k (v >>> (8 * n)) := by
  rw [toBytes, List.range_add, List.map_append, List.map_map, toBytes, toBytes]
  congr 1
  refine List.map_congr_left fun i _ => ?_
  rw [Function.comp_apply, BitVec.toNat_ushiftRight, Nat.shiftRight_eq_div_pow, Nat.pow_add,
    Nat.div_div_eq_div_mul, Nat.pow_mul]

/-- Bytes survive the word they make, if it has room for them. -/
theorem toBytes_ofBytes {bs : List UInt8} (room : 8 * bs.length ≤ w) :
    toBytes bs.length (ofBytes w bs) = bs := by
  induction bs with
  | nil => rfl
  | cons b bs ih =>
    rw [List.length_cons] at room
    have small : Nat.ofDigits 256 (bs.map UInt8.toNat) < 256 ^ bs.length := by
      have bound := Nat.ofDigits_lt_base_pow_length (b := 256) (l := bs.map UInt8.toNat)
        (by omega) fun k member => by
          obtain ⟨c, -, rfl⟩ := List.mem_map.mp member
          exact c.toNat_lt
      rwa [List.length_map] at bound
    have first := b.toNat_lt
    have wide : 256 ^ bs.length * 256 ≤ 2 ^ w := by
      rw [← Nat.pow_succ, show 256 = 2 ^ 8 by rfl, ← Nat.pow_mul]
      exact Nat.pow_le_pow_right Nat.two_pos room
    have value : (ofBytes w (b :: bs)).toNat
        = b.toNat + 256 * Nat.ofDigits 256 (bs.map UInt8.toNat) := by
      rw [ofBytes, List.map_cons, Nat.ofDigits_cons, BitVec.toNat_ofNat]
      exact Nat.mod_eq_of_lt (by omega)
    have rest : ofBytes w (b :: bs) >>> (8 * 1) = ofBytes w bs := by
      refine BitVec.eq_of_toNat_eq ?_
      rw [BitVec.toNat_ushiftRight, value, ofBytes, BitVec.toNat_ofNat, Nat.mod_eq_of_lt (by omega),
        Nat.shiftRight_eq_div_pow]
      omega
    rw [List.length_cons, Nat.add_comm, toBytes_add, rest, ih (by omega)]
    simp only [toBytes, List.range_one, List.map_singleton, Nat.pow_zero, Nat.div_one, value]
    have head : UInt8.ofNat (b.toNat + 256 * Nat.ofDigits 256 (bs.map UInt8.toNat)) = b := by
      refine UInt8.toNat_inj.mp ?_
      rw [UInt8.toNat_ofNat']
      omega
    rw [head, List.singleton_append]

/-- The low bytes of a word are those of the word cut down to them. -/
theorem toBytes_setWidth {n k : Nat} (enough : 8 * n ≤ k) (v : BitVec w) :
    toBytes n (v.setWidth k) = toBytes n v := by
  refine List.map_congr_left fun i inside => ?_
  rw [List.mem_range] at inside
  have split : 2 ^ k = 256 ^ i * (256 * 2 ^ (k - 8 * (i + 1))) := by
    rw [show 256 = 2 ^ 8 by rfl, ← Nat.pow_mul, ← Nat.pow_add, ← Nat.pow_add]
    congr 1
    omega
  refine UInt8.toNat_inj.mp ?_
  rw [UInt8.toNat_ofNat', UInt8.toNat_ofNat', BitVec.toNat_setWidth, split,
    Nat.mod_mul_right_div_self, Nat.mod_mul_right_mod]

/-- A word whose bytes are all alike, doubled -/
theorem toBytes_double {n : Nat} {v : BitVec w} {b : UInt8} (room : 8 * (n + n) ≤ w)
    (small : v.toNat < 2 ^ (8 * n)) (bytes : toBytes n v = List.replicate n b) :
    (v <<< (8 * n) ||| v).toNat < 2 ^ (8 * (n + n)) ∧
      toBytes (n + n) (v <<< (8 * n) ||| v) = List.replicate (n + n) b := by
  have size : 2 ^ (8 * (n + n)) = 2 ^ (8 * n) * 2 ^ (8 * n) := by
    rw [← Nat.pow_add, Nat.mul_add]
  have shifted : v.toNat * 2 ^ (8 * n) + v.toNat < 2 ^ (8 * n) * 2 ^ (8 * n) := by
    have most := Nat.mul_le_mul_right (2 ^ (8 * n)) small
    rw [Nat.succ_mul] at most
    omega
  have fits : 2 ^ (8 * (n + n)) ≤ 2 ^ w := Nat.pow_le_pow_right Nat.two_pos room
  have value : (v <<< (8 * n) ||| v).toNat = v.toNat * 2 ^ (8 * n) + v.toNat := by
    rw [BitVec.toNat_or, BitVec.toNat_shiftLeft, Nat.shiftLeft_eq, Nat.mod_eq_of_lt (by omega),
      ← Nat.shiftLeft_eq, ← Nat.shiftLeft_add_eq_or_of_lt small]
  refine ⟨by omega, ?_⟩
  have low : toBytes n (v <<< (8 * n) ||| v) = toBytes n v := by
    rw [← toBytes_setWidth (Nat.le_refl (8 * n)), ← toBytes_setWidth (Nat.le_refl (8 * n)) v]
    congr 1
    refine BitVec.eq_of_toNat_eq ?_
    rw [BitVec.toNat_setWidth, BitVec.toNat_setWidth, value, Nat.mul_add_mod_self_right]
  have high : (v <<< (8 * n) ||| v) >>> (8 * n) = v := by
    refine BitVec.eq_of_toNat_eq ?_
    rw [BitVec.toNat_ushiftRight, value, Nat.shiftRight_eq_div_pow, Nat.mul_comm,
      Nat.mul_add_div (Nat.two_pow_pos _), Nat.div_eq_of_lt small, Nat.add_zero]
  rw [toBytes_add, low, high, bytes, List.replicate_append_replicate]

/-- The word of `w` bits in the `n` bytes at `a`. -/
def Memory.readWord (m : Memory w) (n : Nat) (a : BitVec w) : BitVec w :=
  ofBytes w (m.read a n)

/-- The memory with the word `v` in the `n` bytes at `a`. -/
def Memory.writeWord (m : Memory w) (n : Nat) (a v : BitVec w) : Memory w :=
  m.write a (toBytes n v)

theorem Memory.readWord_writeWord_same {m : Memory w} {n : Nat} {a v : BitVec w}
    (wide : w ≤ 8 * n) (fits : n ≤ 2 ^ w) : (m.writeWord n a v).readWord n a = v := by
  have back : (m.write a (toBytes n v)).read a (toBytes n v).length = toBytes n v :=
    read_write_same (by rwa [length_toBytes])
  rw [length_toBytes] at back
  rw [readWord, writeWord, back, ofBytes_toBytes wide]

theorem Memory.readWord_writeWord_apart {m : Memory w} {n : Nat} {a b v : BitVec w}
    (apart : Apart a n b n) : (m.writeWord n a v).readWord n b = m.readWord n b := by
  rw [readWord, writeWord, read_write_apart (by rwa [length_toBytes]), readWord]

/-! ## Structures of words -/

/-- The address of word `i` of the structure of `n`-byte words at `base`. -/
def field (n : Nat) (base : BitVec w) (i : Nat) : BitVec w :=
  base + BitVec.ofNat w (n * i)

/-- Two different words of a structure are apart. -/
theorem apart_field {n size i j : Nat} {base : BitVec w} (some_bytes : 0 < n)
    (fits : n * size ≤ 2 ^ w) (hi : i < size) (hj : j < size) (differ : i ≠ j) :
    Apart (field n base i) n (field n base j) n := by
  have hn : ∀ {k}, k < size → n * k + n ≤ 2 ^ w := fun hk =>
    Nat.le_trans (Nat.mul_succ n _ ▸ Nat.mul_le_mul_left n (Nat.succ_le_of_lt hk)) fits
  have step : ∀ {k l}, k < l → n * k + n ≤ n * l := fun hkl =>
    Nat.mul_succ n _ ▸ Nat.mul_le_mul_left n (Nat.succ_le_of_lt hkl)
  have hi' := hn hi
  have hj' := hn hj
  rcases Nat.lt_or_gt_of_ne differ with below | above
  · exact apart_of_offsets (step below) some_bytes (by omega) (by omega)
  · exact (apart_of_offsets (step above) some_bytes (by omega) (by omega)).symm

/-- What is apart from a whole structure is apart from each of its words. -/
theorem Apart.field {n size i k : Nat} {base b : BitVec w} (some_bytes : 0 < n)
    (apart : Apart base (n * size) b k) (hi : i < size) : Apart (field n base i) n b k := by
  have inside : n * i + n ≤ n * size :=
    Nat.mul_succ n _ ▸ Nat.mul_le_mul_left n (Nat.succ_le_of_lt hi)
  exact (apart.symm.part inside some_bytes).symm

/-- A word of a structure is read out of the bytes of the whole. -/
theorem Memory.read_field (m : Memory w) {n size i : Nat} (base : BitVec w) (hi : i < size) :
    m.read (field n base i) n = ((m.read base (n * size)).drop (n * i)).take n :=
  m.read_part base (Nat.mul_succ n i ▸ Nat.mul_le_mul_left n (Nat.succ_le_of_lt hi))

/-- The memory after storing the given words of the structure at `base`, in order. -/
def Memory.storeFields (m : Memory w) (n : Nat) (base : BitVec w) (fs : List (Nat × BitVec w)) :
    Memory w :=
  fs.foldl (fun m f => m.writeWord n (field n base f.1) f.2) m

theorem Memory.storeFields_append (m : Memory w) (n : Nat) (base : BitVec w)
    (fs gs : List (Nat × BitVec w)) :
    m.storeFields n base (fs ++ gs) = (m.storeFields n base fs).storeFields n base gs :=
  List.foldl_append

section

variable {n size : Nat} {base : BitVec w} (some_bytes : 0 < n) (fits : n * size ≤ 2 ^ w)
include some_bytes

/-- The words stored are all inside the structure. -/
theorem Memory.read_storeFields_apart {fs : List (Nat × BitVec w)} {b : BitVec w} {k : Nat}
    (inside : ∀ f ∈ fs, f.1 < size) (apart : Apart base (n * size) b k) (m : Memory w) :
    (m.storeFields n base fs).read b k = m.read b k := by
  induction fs generalizing m with
  | nil => rfl
  | cons f fs ih =>
    have rest := ih (fun g hg => inside g (List.mem_cons_of_mem f hg))
      (m.writeWord n (field n base f.1) f.2)
    have first : Apart (field n base f.1) n b k :=
      apart.field some_bytes (inside f List.mem_cons_self)
    exact rest.trans (read_write_apart (by rwa [length_toBytes]))

include fits

/-- A word of the structure that is not stored stays. -/
theorem Memory.readWord_storeFields_of_notMem {fs : List (Nat × BitVec w)} {i : Nat}
    (inside : ∀ f ∈ fs, f.1 < size) (hi : i < size) (absent : i ∉ fs.map Prod.fst)
    (m : Memory w) :
    (m.storeFields n base fs).readWord n (field n base i) = m.readWord n (field n base i) := by
  induction fs generalizing m with
  | nil => rfl
  | cons f fs ih =>
    rw [List.map_cons, List.mem_cons, not_or] at absent
    have rest := ih (fun g hg => inside g (List.mem_cons_of_mem f hg)) absent.2
      (m.writeWord n (field n base f.1) f.2)
    have first : Apart (field n base f.1) n (field n base i) n :=
      apart_field some_bytes fits (inside f List.mem_cons_self) hi (Ne.symm absent.1)
    exact rest.trans (readWord_writeWord_apart first)

/-- A word that is stored once is read back. -/
theorem Memory.readWord_storeFields_of_mem (wide : w ≤ 8 * n) {fs : List (Nat × BitVec w)}
    {i : Nat} {v : BitVec w} (inside : ∀ f ∈ fs, f.1 < size) (once : (fs.map Prod.fst).Nodup)
    (present : (i, v) ∈ fs) (m : Memory w) :
    (m.storeFields n base fs).readWord n (field n base i) = v := by
  induction fs generalizing m with
  | nil => exact absurd present List.not_mem_nil
  | cons f fs ih =>
    rw [List.map_cons, List.nodup_cons] at once
    have later : ∀ g ∈ fs, g.1 < size := fun g hg => inside g (List.mem_cons_of_mem f hg)
    rcases List.mem_cons.mp present with rfl | present
    · have hi : i < size := inside (i, v) List.mem_cons_self
      have hn : n ≤ 2 ^ w := Nat.le_trans (Nat.le_mul_of_pos_right n (by omega)) fits
      have rest : _ = Memory.readWord _ n (field n base i) :=
        readWord_storeFields_of_notMem some_bytes fits later hi once.1
          (m.writeWord n (field n base i) v)
      exact rest.trans (readWord_writeWord_same wide hn)
    · exact ih later once.2 present _

end

/-! ## Arrays of words as bytes -/

/-- The bytes of words of `n` bytes, one word after the other. -/
def wordsBytes (n : Nat) (ws : List (BitVec w)) : List UInt8 :=
  ws.flatMap (toBytes n)

/-- Word `i` of an array of words of `n` bytes. -/
def wordAt (w n : Nat) (bs : List UInt8) (i : Nat) : BitVec w :=
  ofBytes w ((bs.drop (n * i)).take n)

/-- The bytes after a copy of `bs` over their start. -/
def overwrite (bs old : List UInt8) : List UInt8 :=
  bs ++ old.drop bs.length

@[simp] theorem length_wordsBytes (n : Nat) (ws : List (BitVec w)) :
    (wordsBytes n ws).length = n * ws.length := by
  induction ws with
  | nil => rfl
  | cons v ws ih =>
    rw [wordsBytes, List.flatMap_cons, List.length_append, length_toBytes, ← wordsBytes, ih,
      List.length_cons, Nat.mul_succ, Nat.add_comm]

theorem wordAt_wordsBytes {n : Nat} (wide : w ≤ 8 * n) {ws : List (BitVec w)} {i : Nat}
    (inside : i < ws.length) : wordAt w n (wordsBytes n ws) i = ws[i] := by
  induction ws generalizing i with
  | nil => exact absurd inside (Nat.not_lt_zero i)
  | cons v ws ih =>
    rw [wordsBytes, List.flatMap_cons, ← wordsBytes]
    cases i with
    | zero =>
      rw [wordAt, Nat.mul_zero, List.drop_zero, List.take_left' (length_toBytes n v),
        ofBytes_toBytes wide, List.getElem_cons_zero]
    | succ i =>
      rw [wordAt, Nat.mul_succ, Nat.add_comm, ← List.drop_drop,
        List.drop_left' (length_toBytes n v)]
      exact ih (Nat.lt_of_succ_lt_succ inside)

/-- A word that the copy covers comes from it. -/
theorem wordAt_overwrite_of_lt {n i : Nat} {bs old : List UInt8} (covered : n * i + n ≤ bs.length) :
    wordAt w n (overwrite bs old) i = wordAt w n bs i := by
  rw [wordAt, overwrite, List.drop_append_of_le_length (by omega),
    List.take_append_of_le_length (by rw [List.length_drop]; omega), wordAt]

/-- A word that the copy does not come to stays. -/
theorem wordAt_overwrite_of_le {n i : Nat} {bs old : List UInt8} (past : bs.length ≤ n * i) :
    wordAt w n (overwrite bs old) i = wordAt w n old i := by
  rw [wordAt, overwrite, List.drop_append, List.drop_eq_nil_of_le past, List.nil_append,
    List.drop_drop, Nat.add_sub_cancel' past, wordAt]

theorem wordAt_take {n i k : Nat} {bs : List UInt8} (inside : n * i + n ≤ k) :
    wordAt w n (bs.take k) i = wordAt w n bs i := by
  rw [wordAt, List.drop_take, List.take_take, Nat.min_eq_left (by omega), wordAt]

/-- Words survive the bytes they are taken from. -/
theorem wordsBytes_wordAt {n k : Nat} (room : 8 * n ≤ w) {bs : List UInt8}
    (length : bs.length = n * k) : wordsBytes n ((List.range k).map (wordAt w n bs)) = bs := by
  induction k generalizing bs with
  | zero => exact (List.length_eq_zero_iff.mp length).symm
  | succ k ih =>
    have next : wordAt w n bs ∘ Nat.succ = wordAt w n (bs.drop n) := by
      funext i
      rw [Function.comp_apply, wordAt, Nat.mul_succ, Nat.add_comm, ← List.drop_drop, wordAt]
    have rest : (bs.drop n).length = n * k := by
      rw [List.length_drop, length, Nat.mul_succ, Nat.add_sub_cancel]
    have first : toBytes n (wordAt w n bs 0) = bs.take n := by
      have enough : (bs.take n).length = n := by
        rw [List.length_take, length, Nat.mul_succ, Nat.min_eq_left (Nat.le_add_left ..)]
      have back : toBytes (bs.take n).length (ofBytes w (bs.take n)) = bs.take n :=
        toBytes_ofBytes (by rwa [enough])
      rw [enough] at back
      rw [wordAt, Nat.mul_zero, List.drop_zero]
      exact back
    rw [List.range_succ_eq_map, List.map_cons, List.map_map, wordsBytes, List.flatMap_cons,
      ← wordsBytes, next, ih rest, first, List.take_append_drop]

/-! ## Patches -/

/-- The bytes after a copy of `bs` over them from `pos` on, as far as they reach. -/
def patch (pos : Nat) (bs old : List UInt8) : List UInt8 :=
  old.take pos ++ overwrite (bs.take (old.length - pos)) (old.drop pos)

section Patch

variable {pos : Nat} {bs old : List UInt8}

/-- A patch that does not reach over the end. -/
theorem patch_eq (inside : pos + bs.length ≤ old.length) :
    patch pos bs old = old.take pos ++ (bs ++ old.drop (pos + bs.length)) := by
  have whole : bs.take (old.length - pos) = bs := List.take_of_length_le (by omega)
  rw [patch, whole, overwrite, List.drop_drop]

theorem length_patch (inside : pos + bs.length ≤ old.length) :
    (patch pos bs old).length = old.length := by
  rw [patch_eq inside]
  simp only [List.length_append, List.length_take, List.length_drop]
  omega

/-- Two patches with the same bytes are equal exactly when what they leave is. -/
theorem patch_inj {new : List UInt8} (length : old.length = new.length)
    (inside : pos + bs.length ≤ old.length) :
    patch pos bs old = patch pos bs new
      ↔ old.take pos = new.take pos
        ∧ old.drop (pos + bs.length) = new.drop (pos + bs.length) := by
  rw [patch_eq inside, patch_eq (by rwa [← length])]
  constructor
  · intro same
    obtain ⟨before, after⟩ := List.append_inj same (by simp only [List.length_take, length])
    exact ⟨before, List.append_cancel_left after⟩
  · intro given
    rcases given with ⟨before, after⟩
    rw [before, after]

/-- A word of the array that the patch does not touch stays. -/
theorem wordAt_patch_of_ge {n i : Nat} (inside : pos + bs.length ≤ old.length)
    (after : pos + bs.length ≤ n * i) : wordAt w n (patch pos bs old) i = wordAt w n old i := by
  have start : (old.take pos).length = pos := by
    rw [List.length_take]
    omega
  rw [patch_eq inside, wordAt, List.drop_append, List.drop_eq_nil_of_le (by omega),
    List.nil_append, start, List.drop_append, List.drop_eq_nil_of_le (by omega), List.nil_append,
    List.drop_drop, wordAt]
  congr 3
  omega

theorem wordAt_patch_of_le {n i : Nat} (inside : pos + bs.length ≤ old.length)
    (before : n * i + n ≤ pos) : wordAt w n (patch pos bs old) i = wordAt w n old i := by
  have start : (old.take pos).length = pos := by
    rw [List.length_take]
    omega
  rw [patch_eq inside, wordAt, List.drop_append_of_le_length (by omega),
    List.take_append_of_le_length (by rw [List.length_drop]; omega), List.drop_take,
    List.take_take, Nat.min_eq_left (by omega), wordAt]

/-- A word that the patch covers comes from it. -/
theorem wordAt_patch_of_mem {n i : Nat} (inside : pos + bs.length ≤ old.length)
    (starts : pos ≤ n * i) (ends : n * i + n ≤ pos + bs.length) :
    wordAt w n (patch pos bs old) i = ofBytes w ((bs.drop (n * i - pos)).take n) := by
  have start : (old.take pos).length = pos := by
    rw [List.length_take]
    omega
  rw [patch_eq inside, wordAt, List.drop_append, List.drop_eq_nil_of_le (by omega),
    List.nil_append, start, List.drop_append_of_le_length (by omega),
    List.take_append_of_le_length (by rw [List.length_drop]; omega)]

end Patch

/-! ## Structures of byte runs -/

/-- The memory after writing byte runs at offsets from `base`, in order. -/
def Memory.writeRuns (m : Memory w) (base : BitVec w) (rs : List (Nat × List UInt8)) : Memory w :=
  rs.foldl (fun m r => m.write (base + BitVec.ofNat w r.1) r.2) m

/-- The runs follow each other, none is empty, and they end within `size` bytes. -/
structure Laid (size : Nat) (rs : List (Nat × List UInt8)) : Prop where
  ordered : rs.Pairwise fun r s => r.1 + r.2.length ≤ s.1
  nonempty : ∀ r ∈ rs, 0 < r.2.length
  inside : ∀ r ∈ rs, r.1 + r.2.length ≤ size

theorem Laid.tail {size : Nat} {r : Nat × List UInt8} {rs : List (Nat × List UInt8)}
    (laid : Laid size (r :: rs)) : Laid size rs :=
  ⟨laid.ordered.of_cons, fun s hs => laid.nonempty s (List.mem_cons_of_mem r hs),
    fun s hs => laid.inside s (List.mem_cons_of_mem r hs)⟩

/-- Runs that all stay away from a place do not change it. -/
theorem Memory.read_writeRuns_apart {base b : BitVec w} {n : Nat} {rs : List (Nat × List UInt8)}
    (apart : ∀ r ∈ rs, Apart (base + BitVec.ofNat w r.1) r.2.length b n) (m : Memory w) :
    (m.writeRuns base rs).read b n = m.read b n := by
  induction rs generalizing m with
  | nil => rfl
  | cons r rs ih =>
    have rest := ih (fun s hs => apart s (List.mem_cons_of_mem r hs))
      (m.write (base + BitVec.ofNat w r.1) r.2)
    exact rest.trans (read_write_apart (apart r List.mem_cons_self))

/-- A run that is written among others is read back. -/
theorem Memory.read_writeRuns_of_mem {size : Nat} {base : BitVec w} {rs : List (Nat × List UInt8)}
    {r : Nat × List UInt8} (laid : Laid size rs) (fits : size ≤ 2 ^ w) (member : r ∈ rs)
    (m : Memory w) :
    (m.writeRuns base rs).read (base + BitVec.ofNat w r.1) r.2.length = r.2 := by
  induction rs generalizing m with
  | nil => exact absurd member List.not_mem_nil
  | cons s rs ih =>
    rcases List.mem_cons.mp member with rfl | later
    · have some_bytes := laid.nonempty r List.mem_cons_self
      have inside := laid.inside r List.mem_cons_self
      have after : ∀ t ∈ rs,
          Apart (base + BitVec.ofNat w t.1) t.2.length (base + BitVec.ofNat w r.1) r.2.length := by
        intro t ht
        have before := List.rel_of_pairwise_cons laid.ordered ht
        have limit := laid.inside t (List.mem_cons_of_mem r ht)
        have bytes := laid.nonempty t (List.mem_cons_of_mem r ht)
        exact (apart_of_offsets before some_bytes (by omega) (by omega)).symm
      exact (read_writeRuns_apart after _).trans (read_write_same (by omega))
    · exact ih laid.tail later _

end RiscvLinux.Lib
