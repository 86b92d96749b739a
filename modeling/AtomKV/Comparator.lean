import AtomKV.Format
import AtomKV.Lib.Compare

/-!
# The shipped comparators

`comparator.h`. The numbers lie in the keys as the machine stores them, the lowest byte first.
The comparator for 64-bit numbers holds the function for 32-bit ones, so it is no order on its
keys: the assertion of the function fails, and without the assertion only the low half of a
number would count.
-/

set_option autoImplicit false

namespace AtomKV

/-! ## The code -/

/-- Conversion to `int64_t`. -/
def i64 (x : Int) : Int := (x + 9223372036854775808) % 18446744073709551616 - 9223372036854775808

/-- The number that an integer of `bytes.length` bytes stands for. -/
def littleEndian (bytes : Bytes) : Nat := bytes.foldr (fun b n => b.toNat + 256 * n) 0

/-- `std::memcmp` over the bytes that both strings have. -/
def memcmp : Bytes → Bytes → Int
  | x :: xs, y :: ys => if x = y then memcmp xs ys else (x.toNat : Int) - y.toNat
  | _, _ => 0

/-- `Comparator`. -/
structure Comparator where
  ptr : Bytes → Bytes → Except Err Ordering

/-- What `UInt32CompFunc` returns: four bytes of each key are read. -/
def compareUInt32 (key1 key2 : Bytes) : Ordering :=
  compare (littleEndian (key1.take 4)) (littleEndian (key2.take 4))

/-- `UInt32CompFunc`. -/
def uInt32CompFunc (key1 key2 : Bytes) : Except Err Ordering :=
  if key1.length = 4 ∧ key2.length = 4 then .ok (compareUInt32 key1 key2) else .error .assertion

/-- `UInt64CompFunc`. No comparator holds it. -/
def uInt64CompFunc (key1 key2 : Bytes) : Except Err Ordering :=
  if key1.length = 8 ∧ key2.length = 8 then
    .ok (compare (littleEndian (key1.take 8)) (littleEndian (key2.take 8)))
  else .error .assertion

/-- `ByteArrayCompFunc`; the difference of the sizes is unsigned before it is stored in `res`. -/
def byteArrayCompFunc (key1 key2 : Bytes) : Except Err Ordering :=
  let res := memcmp key1 key2
  if res = 0 ∧ key1.length = key2.length then .ok .eq
  else
    let res := if res = 0 then i64 (u64 ((key1.length : Int) - key2.length)) else res
    if res < 0 then .ok .lt else .ok .gt

def uInt32Comparator : Comparator := ⟨uInt32CompFunc⟩

/-- The source has `UInt32CompFunc` here. -/
def uInt64Comparator : Comparator := ⟨uInt32CompFunc⟩

def byteArrayComparator : Comparator := ⟨byteArrayCompFunc⟩

/-! ## The orders they stand for -/

/-- The comparators that the header ships. -/
inductive Shipped where
  | uInt32
  | uInt64
  | byteArray
  deriving DecidableEq, Repr

namespace Shipped

def comparator : Shipped → Comparator
  | uInt32 => uInt32Comparator
  | uInt64 => uInt64Comparator
  | byteArray => byteArrayComparator

/-- The keys of a comparator. An array in memory has less than `2 ^ 63` bytes. -/
def IsKey : Shipped → Bytes → Prop
  | uInt32, key => key.length = 4
  | uInt64, key => key.length = 8
  | byteArray, key => key.length < 9223372036854775808

/-- The order of the numbers, and the lexicographic order of the bytes. -/
def order : Shipped → Bytes → Bytes → Ordering
  | uInt32, a, b => compare (littleEndian a) (littleEndian b)
  | uInt64, a, b => compare (littleEndian a) (littleEndian b)
  | byteArray, a, b => List.compareLex compare a b

end Shipped

/-- A comparator that orders the keys with `IsKey` totally. -/
structure Comparator.TotalOn (c : Comparator) (IsKey : Bytes → Prop) : Prop where
  eq_iff : ∀ a b, IsKey a → IsKey b → (c.ptr a b = .ok .eq ↔ a = b)
  swap : ∀ a b, IsKey a → IsKey b → (c.ptr a b = .ok .lt ↔ c.ptr b a = .ok .gt)
  trans : ∀ a b d, IsKey a → IsKey b → IsKey d → c.ptr a b = .ok .lt → c.ptr b d = .ok .lt →
    c.ptr a d = .ok .lt
  total : ∀ a b, IsKey a → IsKey b → c.ptr a b = .ok .lt ∨ c.ptr a b = .ok .eq ∨ c.ptr a b = .ok .gt

/-- The comparator is the order that it stands for, and this is a total order of its keys. -/
def Shipped.Orders (c : Shipped) : Prop :=
  (∀ a b, c.IsKey a → c.IsKey b → c.comparator.ptr a b = .ok (c.order a b)) ∧
    c.comparator.TotalOn c.IsKey

/-! ## The numbers of two keys -/

theorem littleEndian_cons (b : UInt8) (bytes : Bytes) :
    littleEndian (b :: bytes) = b.toNat + 256 * littleEndian bytes := rfl

/-- Keys of one length with the same number are the same. -/
theorem littleEndian_inj {a b : Bytes} (hlen : a.length = b.length)
    (h : littleEndian a = littleEndian b) : a = b := by
  induction a generalizing b with
  | nil => exact (List.length_eq_zero_iff.1 hlen.symm).symm
  | cons x a ih =>
    cases b with
    | nil => cases hlen
    | cons y b =>
      rw [littleEndian_cons, littleEndian_cons] at h
      have hx := x.toNat_lt
      have hy := y.toNat_lt
      have hhead : x = y := UInt8.toNat_inj.1 (by omega)
      have htail : littleEndian a = littleEndian b := by omega
      rw [hhead, ih (Nat.succ.inj hlen) htail]

/-! ## The bytes of two keys -/

theorem compare_succ (m n : Nat) : compare (m + 1) (n + 1) = compare m n := by
  rw [Nat.compare_eq_ite_lt, Nat.compare_eq_ite_lt]
  simp only [Nat.add_lt_add_iff_right]

theorem compare_lt_iff (x y : UInt8) : compare x y = .lt ↔ x.toNat < y.toNat := by
  rw [← UInt8.lt_iff_toNat_lt]
  exact Std.compare_eq_lt

theorem compare_gt_iff (x y : UInt8) : compare x y = .gt ↔ y.toNat < x.toNat := by
  rw [← UInt8.lt_iff_toNat_lt]
  exact Std.compare_eq_gt

/-- The sign of `memcmp` is the lexicographic order, and without a difference the lengths decide. -/
theorem memcmp_spec (a b : Bytes) : (memcmp a b < 0 → List.compareLex compare a b = .lt) ∧
    (0 < memcmp a b → List.compareLex compare a b = .gt) ∧
      (memcmp a b = 0 → List.compareLex compare a b = compare a.length b.length) := by
  induction a generalizing b with
  | nil =>
    cases b with
    | nil =>
      exact ⟨fun h => absurd h (Int.lt_irrefl _), fun h => absurd h (Int.lt_irrefl _), fun _ => rfl⟩
    | cons y b =>
      refine ⟨fun h => absurd h (Int.lt_irrefl _), fun h => absurd h (Int.lt_irrefl _), fun _ => ?_⟩
      rw [List.compareLex_nil_cons]
      exact (Nat.compare_eq_lt.2 (Nat.zero_lt_succ b.length)).symm
  | cons x a ih =>
    cases b with
    | nil =>
      refine ⟨fun h => absurd h (Int.lt_irrefl _), fun h => absurd h (Int.lt_irrefl _), fun _ => ?_⟩
      rw [List.compareLex_cons_nil]
      exact (Nat.compare_eq_gt.2 (Nat.zero_lt_succ a.length)).symm
    | cons y b =>
      rw [List.compareLex_cons_cons]
      unfold memcmp
      by_cases hxy : x = y
      · subst hxy
        obtain ⟨hlt, hgt, heq⟩ := ih b
        have hself : compare x x = .eq := Std.ReflCmp.compare_self
        rw [if_pos rfl, hself]
        refine ⟨hlt, hgt, fun h => (heq h).trans ?_⟩
        exact (compare_succ a.length b.length).symm
      · -- the first difference decides
        rw [if_neg hxy]
        have hne : x.toNat ≠ y.toNat := fun h => hxy (UInt8.toNat_inj.1 h)
        refine ⟨fun h => ?_, fun h => ?_, fun h => absurd h (by omega)⟩
        · have hlt : compare x y = .lt := (compare_lt_iff x y).2 (by omega)
          rw [hlt]
          rfl
        · have hgt : compare x y = .gt := (compare_gt_iff x y).2 (by omega)
          rw [hgt]
          rfl

/-! ## Each comparator and its order -/

/-- A comparator that computes the order `cmp` on its keys inherits the laws of `cmp`. -/
theorem Comparator.TotalOn.of_order {c : Comparator} {IsKey : Bytes → Prop}
    (cmp : Bytes → Bytes → Ordering) [Std.TransCmp cmp]
    (hrun : ∀ a b, IsKey a → IsKey b → c.ptr a b = .ok (cmp a b))
    (heq : ∀ a b, IsKey a → IsKey b → (cmp a b = .eq → a = b)) : c.TotalOn IsKey := by
  have hval : ∀ {a b o}, IsKey a → IsKey b → (c.ptr a b = .ok o ↔ cmp a b = o) := by
    intro a b o ha hb
    rw [hrun a b ha hb]
    exact ⟨Except.ok.inj, congrArg _⟩
  constructor
  · intro a b ha hb
    rw [hval ha hb]
    refine ⟨heq a b ha hb, ?_⟩
    rintro rfl
    exact Std.ReflCmp.compare_self
  · intro a b ha hb
    rw [hval ha hb, hval hb ha]
    exact ⟨Std.OrientedCmp.gt_of_lt, Std.OrientedCmp.lt_of_gt⟩
  · intro a b d ha hb hd
    rw [hval ha hb, hval hb hd, hval ha hd]
    exact Compare.lt_trans
  · intro a b ha hb
    rw [hval ha hb, hval ha hb, hval ha hb]
    cases cmp a b with
    | lt => exact .inl rfl
    | eq => exact .inr (.inl rfl)
    | gt => exact .inr (.inr rfl)

/-- The order of the numbers in the keys. -/
instance : Std.TransCmp fun a b : Bytes => compare (littleEndian a) (littleEndian b) :=
  inferInstanceAs (Std.TransCmp (compareOn littleEndian))

theorem uInt32_orders : Shipped.uInt32.Orders := by
  have hrun : ∀ a b, Shipped.uInt32.IsKey a → Shipped.uInt32.IsKey b →
      Shipped.uInt32.comparator.ptr a b = .ok (Shipped.uInt32.order a b) := by
    intro a b (ha : a.length = 4) (hb : b.length = 4)
    have hfour : uInt32CompFunc a b = .ok (compareUInt32 a b) := if_pos ⟨ha, hb⟩
    rw [compareUInt32, List.take_of_length_le (Nat.le_of_eq ha),
      List.take_of_length_le (Nat.le_of_eq hb)] at hfour
    exact hfour
  refine ⟨hrun, .of_order (fun a b => compare (littleEndian a) (littleEndian b)) hrun ?_⟩
  intro a b (ha : a.length = 4) (hb : b.length = 4) h
  exact littleEndian_inj (ha.trans hb.symm) (Nat.compare_eq_eq.1 h)

/-- The unsigned difference of two sizes has the right sign once it is stored as `int64_t`. -/
theorem i64_u64_sub {m n : Nat} (hm : m < 9223372036854775808) (hn : n < 9223372036854775808) :
    i64 (u64 ((m : Int) - n)) = (m : Int) - n := by
  unfold i64 u64
  omega

theorem byteArrayCompFunc_eq {a b : Bytes} (ha : a.length < 9223372036854775808)
    (hb : b.length < 9223372036854775808) : byteArrayCompFunc a b =
      .ok (List.compareLex compare a b) := by
  obtain ⟨hlt, hgt, heq⟩ := memcmp_spec a b
  unfold byteArrayCompFunc
  by_cases hzero : memcmp a b = 0
  · -- one string is a prefix of the other
    rw [heq hzero]
    simp only [hzero, true_and, if_true, i64_u64_sub ha hb]
    obtain h | h | h := Nat.lt_trichotomy a.length b.length
    · rw [if_neg (Nat.ne_of_lt h), if_pos (by omega), Nat.compare_eq_lt.2 h]
    · rw [if_pos h, Nat.compare_eq_eq.2 h]
    · rw [if_neg (Nat.ne_of_gt h), if_neg (by omega), Nat.compare_eq_gt.2 h]
  · simp only [hzero, false_and, if_false]
    by_cases hneg : memcmp a b < 0
    · rw [if_pos hneg, hlt hneg]
    · rw [if_neg hneg, hgt (by omega)]

theorem byteArray_orders : Shipped.byteArray.Orders := by
  have hrun : ∀ a b, Shipped.byteArray.IsKey a → Shipped.byteArray.IsKey b →
      Shipped.byteArray.comparator.ptr a b = .ok (Shipped.byteArray.order a b) :=
    fun _ _ ha hb => byteArrayCompFunc_eq ha hb
  refine ⟨hrun, .of_order (List.compareLex compare) hrun ?_⟩
  intro a b _ _ h
  exact Std.LawfulEqCmp.eq_of_compare h

/-- Two numbers of eight bytes with the same low half. -/
def lowHalfEqual : Bytes × Bytes := ([0, 0, 0, 0, 0, 0, 0, 0], [0, 0, 0, 0, 1, 0, 0, 0])

/-- The function that `UInt64Comparator` holds rejects every pair of its keys. -/
theorem uInt64Comparator_fails {a : Bytes} (b : Bytes) (ha : a.length = 8) :
    uInt64Comparator.ptr a b = .error .assertion :=
  if_neg fun h => absurd (ha.symm.trans h.1) (by decide)

/-- **The shipped comparators are the orders of their keys, all but the one for 64-bit numbers.** -/
theorem shipped_orders_iff (c : Shipped) : c.Orders ↔ c ≠ .uInt64 := by
  cases c with
  | uInt32 => exact iff_of_true uInt32_orders (by decide)
  | byteArray => exact iff_of_true byteArray_orders (by decide)
  | uInt64 =>
    refine iff_of_false ?_ (fun h => h rfl)
    intro ⟨hrun, _⟩
    have h := hrun lowHalfEqual.1 lowHalfEqual.2 rfl rfl
    rw [Shipped.comparator, uInt64Comparator_fails _ rfl] at h
    cases h

/-- The comparator for 64-bit numbers fails on two numbers that differ in the high half; without
the assertion it
    takes them for equal. -/
theorem uInt64_not_ordered :
    ¬ (∀ c : Shipped, c.Orders) ∧ uInt64Comparator.ptr lowHalfEqual.1 lowHalfEqual.2 =
      .error .assertion ∧ lowHalfEqual.1 ≠ lowHalfEqual.2 ∧
      compareUInt32 lowHalfEqual.1 lowHalfEqual.2 = .eq := by
  refine ⟨fun hall => ?_, rfl, by decide, rfl⟩
  have h := (hall .uInt64).1 lowHalfEqual.1 lowHalfEqual.2 rfl rfl
  rw [Shipped.comparator, uInt64Comparator_fails _ rfl] at h
  cases h

end AtomKV
