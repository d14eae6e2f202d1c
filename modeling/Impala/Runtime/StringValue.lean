import Mathlib.Data.List.Basic
import Mathlib.Data.List.Induction

/-!
`StringValue` (runtime/string-value.h): a pointer and a length. Only the bytes
are observable through comparisons, hashing and copies, so the model keeps the
bytes. `Compare` is `memcmp` over the common prefix and then the length, the
unsigned-byte lexicographic order of `List UInt8`.
-/

set_option autoImplicit false

namespace Impala

/-- The bytes a `StringValue` points to. -/
abbrev Bytes := List UInt8

namespace StringValue

def memcmp : Bytes → Bytes → Ordering
  | a :: s, b :: t => if a < b then .lt else if b < a then .gt else memcmp s t
  | _, _ => .eq

/-- `StringCompare(s1, n1, s2, n2, len)`: `memcmp` of the first `len` bytes, then
the sign of `n1 - n2`. -/
def stringCompare (s1 s2 : Bytes) (len : Nat) : Ordering :=
  match memcmp (s1.take len) (s2.take len) with
  | .eq => Ord.compare s1.length s2.length
  | r => r

def compare (s t : Bytes) : Ordering :=
  let l := min s.length t.length
  if l = 0 then
    if s.length = t.length then .eq else if s.length = 0 then .lt else .gt
  else stringCompare s t l

def lt (s t : Bytes) : Bool := compare s t == .lt

/-- The scan `while (i >= 0 && ptr[i] == v) i--` from the last byte: the index of
the last byte that differs from `v`, if any. -/
def lastIndexNot (v : UInt8) (s : Bytes) : Option Nat :=
  (s.reverse.findIdx? (· != v)).map (s.length - 1 - ·)

def eq (s t : Bytes) : Bool := s.length == t.length && stringCompare s t s.length == .eq

/-- `StringValue::UnpaddedCharLength`: the length without the trailing spaces, by the
scan `while (last >= 0 && cptr[last] == ' ') --last`. -/
def unpaddedCharLength (s : Bytes) : Nat := ((lastIndexNot 0x20 s).map (· + 1)).getD 0

def largestSmallerString (s : Bytes) : Bytes :=
  if s.length = 0 then []
  else if s.length = 1 ∧ s[0]! = 0 then []
  else match lastIndexNot 0 s with
    | none => List.replicate (s.length - 1) 0
    | some i =>
      if i < s.length - 1 then s.take (s.length - 1) else s.take i ++ [s[i]! - 1]

def leastLargerString (s : Bytes) : Bytes :=
  if s.length = 0 then [0]
  else match lastIndexNot 0xff s with
    | none => List.replicate s.length 0xff ++ [0]
    | some i => s.take i ++ [s[i]! + 1]

theorem memcmp_eq_eq_iff (s t : Bytes) (h : s.length = t.length) :
    memcmp s t = .eq ↔ s = t := by
  induction s generalizing t with
  | nil => cases t <;> simp_all [memcmp]
  | cons a s ih =>
    cases t with
    | nil => simp at h
    | cons b t =>
      have hl : s.length = t.length := by simpa using h
      by_cases hab : a < b
      · simp [memcmp, hab, UInt8.ne_of_lt hab]
      · by_cases hba : b < a
        · simp [memcmp, hab, hba, (UInt8.ne_of_lt hba).symm]
        · have heq : a = b := UInt8.le_antisymm (UInt8.not_lt.1 hba) (UInt8.not_lt.1 hab)
          subst heq
          simp [memcmp, ih t hl]

theorem stringCompare_eq_eq_iff (s t : Bytes) :
    stringCompare s t (min s.length t.length) = .eq ↔ s = t := by
  constructor
  · intro h
    unfold stringCompare at h
    split at h
    · rename_i hm
      have hlen : s.length = t.length := Nat.compare_eq_eq.1 h
      rw [hlen, Nat.min_self, List.take_of_length_le (Nat.le_of_eq hlen),
        List.take_of_length_le (Nat.le_refl _)] at hm
      exact (memcmp_eq_eq_iff s t hlen).1 hm
    · rename_i hne
      exact absurd h hne
  · rintro rfl
    simp [stringCompare, (memcmp_eq_eq_iff s s rfl).2 rfl]

theorem stringCompare_self (s : Bytes) (len : Nat) : stringCompare s s len = .eq := by
  simp [stringCompare, (memcmp_eq_eq_iff (s.take len) (s.take len) rfl).2 rfl]

theorem compare_self (s : Bytes) : compare s s = .eq := by
  unfold compare
  split_ifs <;> simp_all [stringCompare_self]

theorem eq_iff (s t : Bytes) : eq s t = true ↔ s = t := by
  constructor
  · intro h
    simp only [eq, Bool.and_eq_true, beq_iff_eq] at h
    rw [← stringCompare_eq_eq_iff, ← h.1, Nat.min_self]
    exact h.2
  · rintro rfl
    have hself := (stringCompare_eq_eq_iff s s).2 rfl
    rw [Nat.min_self] at hself
    simp [eq, hself]

theorem memcmp_append_left (p u v : Bytes) : memcmp (p ++ u) (p ++ v) = memcmp u v := by
  induction p with
  | nil => rfl
  | cons a p ih => simp [memcmp, ih]

theorem lt_append_of_ne_nil (q : Bytes) {t : Bytes} (ht : t ≠ []) : lt q (q ++ t) = true := by
  have htl : 0 < t.length := List.length_pos_iff.2 ht
  by_cases hq : q = []
  · subst hq
    simp only [lt, compare, List.nil_append, List.length_nil, Nat.zero_min, if_true]
    simp
    omega
  · have hql : 0 < q.length := List.length_pos_iff.2 hq
    have hmin : min q.length (q ++ t).length = q.length := by simp
    have hm : memcmp (q.take q.length) ((q ++ t).take q.length) = .eq := by
      rw [List.take_length, List.take_left]
      exact (memcmp_eq_eq_iff q q rfl).2 rfl
    simp only [lt, compare, hmin, Nat.pos_iff_ne_zero.1 hql, if_false, stringCompare, hm]
    simp only [List.length_append, beq_iff_eq]
    exact Nat.compare_eq_lt.2 (by omega)

theorem lt_append_cons_of_lt (p : Bytes) {x y : UInt8} (hxy : x < y) (s t : Bytes) :
    lt (p ++ x :: s) (p ++ y :: t) = true := by
  set l := min (p ++ x :: s).length (p ++ y :: t).length with hl
  have hl1 : p.length + 1 ≤ l := by simp [l]
  have htake : ∀ (z : UInt8) (u : Bytes),
      (p ++ z :: u).take l = p ++ z :: u.take (l - (p.length + 1)) := by
    intro z u
    rw [List.take_append, List.take_of_length_le (by omega),
      show l - p.length = (l - (p.length + 1)) + 1 by omega, List.take_succ_cons]
  have hm : memcmp ((p ++ x :: s).take l) ((p ++ y :: t).take l) = .lt := by
    rw [htake, htake, memcmp_append_left]
    simp [memcmp, hxy]
  simp only [lt, compare, ← hl, Nat.pos_iff_ne_zero.1 (by omega : 0 < l), if_false, stringCompare, hm]
  rfl

theorem lastIndexNot_append_of_ne {v c : UInt8} (s : Bytes) (hc : c ≠ v) :
    lastIndexNot v (s ++ [c]) = some s.length := by
  simp [lastIndexNot, List.findIdx?_cons, hc]

theorem largestSmallerString_append_of_ne (p : Bytes) {b : UInt8} (hb : b ≠ 0) :
    largestSmallerString (p ++ [b]) = p ++ [b - 1] := by
  have hone : ¬((p ++ [b]).length = 1 ∧ (p ++ [b])[0]! = 0) := by
    rintro ⟨hlen, h0⟩
    have hp : p = [] := by simpa using hlen
    subst hp
    exact hb (by simpa using h0)
  unfold largestSmallerString
  rw [if_neg (by simp), if_neg hone, lastIndexNot_append_of_ne p hb]
  simp

theorem lastIndexNot_append_self (v : UInt8) (s : Bytes) :
    lastIndexNot v (s ++ [v]) = lastIndexNot v s := by
  simp only [lastIndexNot, List.reverse_append, List.reverse_cons, List.reverse_nil,
    List.nil_append, List.singleton_append, List.findIdx?_cons, bne_self_eq_false,
    Bool.false_eq_true, if_false, Option.map_map, List.length_append, List.length_singleton]
  congr 1
  funext j
  simp only [Function.comp]
  omega

theorem lastIndexNot_lt {v : UInt8} {s : Bytes} {i : Nat} (h : lastIndexNot v s = some i) :
    i < s.length := by
  simp only [lastIndexNot, Option.map_eq_some_iff] at h
  obtain ⟨j, hj, rfl⟩ := h
  obtain ⟨hlt, -⟩ := List.findIdx?_eq_some_iff_getElem.1 hj
  rw [List.length_reverse] at hlt
  omega

theorem unpaddedCharLength_le (s : Bytes) : unpaddedCharLength s ≤ s.length := by
  unfold unpaddedCharLength
  cases h : lastIndexNot 0x20 s with
  | none => simp
  | some i =>
    simp only [Option.map_some, Option.getD_some]
    exact lastIndexNot_lt h

theorem take_unpaddedCharLength_append (s : Bytes) :
    s.take (unpaddedCharLength s) ++ List.replicate (s.length - unpaddedCharLength s) 0x20 = s := by
  induction s using List.reverseRecOn with
  | nil => simp [unpaddedCharLength, lastIndexNot]
  | append_singleton s c ih =>
    by_cases hc : c = 0x20
    · subst hc
      have hu : unpaddedCharLength (s ++ [0x20]) = unpaddedCharLength s := by
        simp only [unpaddedCharLength, lastIndexNot_append_self]
      have hle := unpaddedCharLength_le s
      rw [hu, List.take_append_of_le_length hle, List.length_append, List.length_singleton,
        show s.length + 1 - unpaddedCharLength s = (s.length - unpaddedCharLength s) + 1 by omega,
        List.replicate_succ', ← List.append_assoc, ih]
    · have hu : unpaddedCharLength (s ++ [c]) = s.length + 1 := by
        simp [unpaddedCharLength, lastIndexNot_append_of_ne s hc]
      rw [hu, List.take_of_length_le (by simp)]
      simp

theorem eq_of_unpadded_compare {x y : Bytes} (hlen : x.length = y.length)
    (h : stringCompare (x.take (unpaddedCharLength x)) (y.take (unpaddedCharLength y))
      (min (unpaddedCharLength x) (unpaddedCharLength y)) = .eq) : x = y := by
  have hx := unpaddedCharLength_le x
  have hy := unpaddedCharLength_le y
  have hmin : min (unpaddedCharLength x) (unpaddedCharLength y) =
      min (x.take (unpaddedCharLength x)).length (y.take (unpaddedCharLength y)).length := by
    rw [List.length_take_of_le hx, List.length_take_of_le hy]
  rw [hmin, stringCompare_eq_eq_iff] at h
  have hu : unpaddedCharLength x = unpaddedCharLength y := by
    have := congrArg List.length h
    rwa [List.length_take_of_le hx, List.length_take_of_le hy] at this
  rw [← take_unpaddedCharLength_append x, ← take_unpaddedCharLength_append y, h, hu, hlen]

end StringValue

end Impala
