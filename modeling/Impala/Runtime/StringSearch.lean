import Mathlib
import Impala.Lib.PatternMatch
import Impala.Runtime.StringValue

/-!
Substring search (runtime/string-search.h, `StringSearch`): the Boyer-Moore-Horspool search
of CPython's `fastsearch`, forward (`Search`) and backward (`RSearch`).

The constructor keeps a 64-bit Bloom mask of the pattern's bytes, indexed by their low six
bits, and two shifts: `skip_` for a window whose last byte matches the pattern's, from the
last earlier occurrence of that byte, and `rskip_` for a window whose first byte matches,
from the first later occurrence of the pattern's first byte. A window is skipped whole when
the byte just past it is not in the mask. Every offset either loop skips is no occurrence,
so `Search` returns the least occurrence and `RSearch` the greatest (`search_eq`,
`rsearch_eq`), with `-1` for none and for the empty pattern.
-/

set_option autoImplicit false

namespace Impala

open PatternMatch

/-- A `StringSearch` built from `pattern`: `mask_`, `skip_` and `rskip_`. -/
structure StringSearch where
  pattern : Bytes
  mask : Nat
  skip : Nat
  rskip : Nat

namespace StringSearch

def bloomWidth : Nat := 64

/-- The bit of a byte in the mask, `c & (BLOOM_WIDTH - 1)`: the low six bits of a `char` are
those of its byte. -/
def bloomBit (c : UInt8) : Nat := c.toNat &&& (bloomWidth - 1)

def bloomAdd (mask : Nat) (c : UInt8) : Nat := mask ||| 1 <<< bloomBit c

def bloomQuery (mask : Nat) (c : UInt8) : Bool := mask &&& 1 <<< bloomBit c != 0

/-- The loop of the constructor on `skip_`: from `mlast - 1`, the distance to the last
byte for each earlier occurrence of it. -/
def skipOf (p : Bytes) : Nat :=
  let mlast := p.length - 1
  (List.range mlast).foldl
    (fun skip i => if p.getD i 0 = p.getD mlast 0 then mlast - i - 1 else skip) (mlast - 1)

/-- The loop of the constructor on `rskip_`, from `i = mlast` down to `1`: the distance from
the first byte to the first later occurrence of it. -/
def rskipOf (p : Bytes) : Nat :=
  let mlast := p.length - 1
  (List.range' 1 mlast).foldr
    (fun i rskip => if p.getD i 0 = p.getD 0 0 then i - 1 else rskip) (mlast - 1)

/-- `StringSearch(&pattern)`. The Bloom mask takes every byte of the pattern, in the order of
the loop: the order changes nothing in it. -/
def ofPattern (p : Bytes) : StringSearch :=
  if p.length ≤ 1 then ⟨p, 0, 0, 0⟩
  else ⟨p, p.foldl bloomAdd 0, skipOf p, rskipOf p⟩

/-- The loop of `Search` from offset `i`, for a pattern of two bytes or more; each iteration
moves `i` on, so `fuel`, the length of the string plus one, bounds them. -/
def searchLoop (ss : StringSearch) (s : Bytes) : Nat → Nat → Option Nat
  | 0, _ => none
  | fuel + 1, i =>
    let p := ss.pattern
    let m := p.length
    let n := s.length
    if n < i + m then none
    else
      let pastWindow := decide (i + m < n) && !bloomQuery ss.mask (s.getD (i + m) 0)
      if s.getD (i + m - 1) 0 = p.getD (m - 1) 0 then
        if (List.range (m - 1)).all fun j => s.getD (i + j) 0 == p.getD j 0 then some i
        else searchLoop ss s fuel ((if pastWindow then i + m else i + ss.skip) + 1)
      else searchLoop ss s fuel ((if pastWindow then i + m else i) + 1)

def search (ss : StringSearch) (s : Bytes) : Int :=
  match ss.pattern with
  | [] => -1
  | [c] => ((s.findIdx? (· == c)).map Int.ofNat).getD (-1)
  | _ => ((searchLoop ss s (s.length + 1) 0).map Int.ofNat).getD (-1)

/-- The loop of `RSearch` over the offsets below `t`, downward, for a pattern of two bytes or
more. -/
def rsearchLoop (ss : StringSearch) (s : Bytes) : Nat → Nat → Option Nat
  | 0, _ => none
  | _ + 1, 0 => none
  | fuel + 1, i + 1 =>
    let p := ss.pattern
    let m := p.length
    let beforeWindow := decide (0 < i) && !bloomQuery ss.mask (s.getD (i - 1) 0)
    if s.getD i 0 = p.getD 0 0 then
      if (List.range (m - 1)).all fun j => s.getD (i + 1 + j) 0 == p.getD (1 + j) 0 then some i
      else rsearchLoop ss s fuel (if beforeWindow then i - m else i - ss.rskip)
    else rsearchLoop ss s fuel (if beforeWindow then i - m else i)

def rsearch (ss : StringSearch) (s : Bytes) : Int :=
  match ss.pattern with
  | [] => -1
  | [c] => (((List.range s.length).reverse.find? fun k => s.getD k 0 == c).map Int.ofNat).getD (-1)
  | _ => ((rsearchLoop ss s (s.length + 1) (s.length + 1 - ss.pattern.length)).map Int.ofNat).getD (-1)

/-! ### The mask and the shifts -/

theorem and_two_pow_ne_zero_iff (x k : Nat) : x &&& 2 ^ k ≠ 0 ↔ x.testBit k := by
  constructor
  · intro h
    by_contra hbit
    apply h
    apply Nat.eq_of_testBit_eq
    intro i
    simp only [Nat.testBit_and, Nat.testBit_two_pow, Nat.zero_testBit]
    by_cases hki : k = i
    · subst hki
      simpa using hbit
    · simp [hki]
  · intro hbit h
    have := congrArg (Nat.testBit · k) h
    simp [Nat.testBit_and, Nat.testBit_two_pow_self, hbit] at this

theorem bloomQuery_iff (mask : Nat) (c : UInt8) :
    bloomQuery mask c = true ↔ mask.testBit (bloomBit c) := by
  simp [bloomQuery, Nat.shiftLeft_eq, and_two_pow_ne_zero_iff]

theorem testBit_foldl_bloomAdd {mask k : Nat} (h : mask.testBit k) (p : Bytes) :
    (p.foldl bloomAdd mask).testBit k := by
  induction p generalizing mask with
  | nil => exact h
  | cons c p ih =>
    simp only [List.foldl_cons]
    exact ih (by simp [bloomAdd, h])

theorem bloomQuery_foldl_of_mem {p : Bytes} {c : UInt8} (h : c ∈ p) (mask : Nat) :
    bloomQuery (p.foldl bloomAdd mask) c = true := by
  rw [bloomQuery_iff]
  induction p generalizing mask with
  | nil => simp at h
  | cons d p ih =>
    rcases List.mem_cons.1 h with rfl | h
    · simp only [List.foldl_cons]
      apply testBit_foldl_bloomAdd
      simp [bloomAdd, Nat.shiftLeft_eq, Nat.testBit_two_pow_self]
    · exact ih h _

theorem not_mem_of_bloomQuery {p : Bytes} (hp : 2 ≤ p.length) {c : UInt8}
    (h : bloomQuery (ofPattern p).mask c = false) : c ∉ p := by
  intro hc
  have hmask : (ofPattern p).mask = p.foldl bloomAdd 0 := by
    simp [ofPattern, show ¬ p.length ≤ 1 by omega]
  rw [hmask, bloomQuery_foldl_of_mem hc] at h
  cases h

theorem skipLoop_spec (p : Bytes) (n : Nat) :
    let mlast := p.length - 1
    let skip := (List.range n).foldl
      (fun skip i => if p.getD i 0 = p.getD mlast 0 then mlast - i - 1 else skip) (mlast - 1)
    skip ≤ mlast - 1 ∧ ∀ d, 0 < d → d ≤ skip → mlast - d < n → p.getD (mlast - d) 0 ≠ p.getD mlast 0 := by
  intro mlast
  induction n with
  | zero => exact ⟨Nat.le_refl _, fun d _ _ hn => absurd hn (Nat.not_lt_zero _)⟩
  | succ n ih =>
    obtain ⟨hle, hskip⟩ := ih
    simp only [List.range_succ, List.foldl_append, List.foldl_cons, List.foldl_nil]
    split_ifs with hn
    · exact ⟨by omega, fun d hd hds hdn => by omega⟩
    · refine ⟨hle, fun d hd hds hdn => ?_⟩
      rcases Nat.lt_succ_iff_lt_or_eq.1 hdn with hdn | hdn
      · exact hskip d hd hds hdn
      · rwa [hdn]

theorem skipOf_spec (p : Bytes) :
    skipOf p ≤ p.length - 2 ∧ ∀ d, 0 < d → d ≤ skipOf p →
      p.getD (p.length - 1 - d) 0 ≠ p.getD (p.length - 1) 0 := by
  obtain ⟨hle, hskip⟩ := skipLoop_spec p (p.length - 1)
  have hle' : skipOf p ≤ p.length - 1 - 1 := hle
  exact ⟨by omega, fun d hd hds => hskip d hd hds (by omega)⟩

theorem rskipLoop_spec (p : Bytes) (cnt : Nat) :
    ∀ lo, 0 < lo → lo + cnt = p.length →
      let rskip := (List.range' lo cnt).foldr
        (fun i rskip => if p.getD i 0 = p.getD 0 0 then i - 1 else rskip) (p.length - 1 - 1)
      rskip ≤ p.length - 2 ∧ ∀ d, 0 < d → d ≤ rskip → lo ≤ d → p.getD d 0 ≠ p.getD 0 0 := by
  induction cnt with
  | zero =>
    intro lo _ hlo
    simp only [List.range'_zero, List.foldr_nil]
    exact ⟨by omega, fun d _ hdr hlod => by omega⟩
  | succ cnt ih =>
    intro lo hlo hcnt
    obtain ⟨hle, hskip⟩ := ih (lo + 1) (by omega) (by omega)
    simp only [List.range'_succ, List.foldr_cons]
    split_ifs with hfirst
    · exact ⟨by omega, fun d hd hdr hlod => by omega⟩
    · refine ⟨hle, fun d hd hdr hlod => ?_⟩
      rcases Nat.eq_or_lt_of_le hlod with rfl | hlt
      · exact hfirst
      · exact hskip d hd hdr hlt

theorem rskipOf_spec (p : Bytes) (hp : 2 ≤ p.length) :
    rskipOf p ≤ p.length - 2 ∧ ∀ d, 0 < d → d ≤ rskipOf p → p.getD d 0 ≠ p.getD 0 0 := by
  obtain ⟨hle, hskip⟩ := rskipLoop_spec p (p.length - 1) 1 Nat.one_pos (by omega)
  exact ⟨hle, fun d hd hdr => hskip d hd hdr hd⟩

/-! ### Windows -/

variable {p s : Bytes}

theorem getElem?_eq_some_getD {l : Bytes} {k : Nat} (h : k < l.length) :
    l[k]? = some (l.getD k 0) := by
  simp [List.getD_eq_getElem?_getD, List.getElem?_eq_getElem h]

theorem getD_eq_iff_getElem? {l : Bytes} {k : Nat} (h : k < l.length) (c : UInt8) :
    (l.getD k 0 == c) = decide (l[k]? = some c) := by
  rw [getElem?_eq_some_getD h]
  simp only [Option.some.injEq]
  exact Bool.eq_iff_iff.2 (by simp)

theorem matchAt_iff_getD {i : Nat} (h : i + p.length ≤ s.length) :
    MatchAt p s i ↔ ∀ k < p.length, s.getD (i + k) 0 = p.getD k 0 := by
  constructor
  · rintro ⟨-, hk⟩ k hkp
    have := hk k hkp
    rw [getElem?_eq_some_getD (by omega), getElem?_eq_some_getD hkp] at this
    exact Option.some.inj this
  · intro hk
    refine ⟨h, fun k hkp => ?_⟩
    rw [getElem?_eq_some_getD (by omega), getElem?_eq_some_getD hkp, hk k hkp]

theorem matchAt_iff_search {i : Nat} (hm : 2 ≤ p.length) (h : i + p.length ≤ s.length) :
    MatchAt p s i ↔ s.getD (i + p.length - 1) 0 = p.getD (p.length - 1) 0 ∧
      ((List.range (p.length - 1)).all fun j => s.getD (i + j) 0 == p.getD j 0) = true := by
  rw [matchAt_iff_getD h]
  simp only [List.all_eq_true, List.mem_range, beq_iff_eq]
  have hlastIdx : i + (p.length - 1) = i + p.length - 1 := by omega
  constructor
  · intro hk
    exact ⟨hlastIdx ▸ hk (p.length - 1) (by omega), fun j hj => hk j (by omega)⟩
  · rintro ⟨hlast, hrest⟩ k hk
    by_cases hkl : k < p.length - 1
    · exact hrest k hkl
    · rw [show k = p.length - 1 by omega, hlastIdx]
      exact hlast

theorem matchAt_iff_rsearch {i : Nat} (hm : 2 ≤ p.length) (h : i + p.length ≤ s.length) :
    MatchAt p s i ↔ s.getD i 0 = p.getD 0 0 ∧
      ((List.range (p.length - 1)).all fun j => s.getD (i + 1 + j) 0 == p.getD (1 + j) 0) = true := by
  rw [matchAt_iff_getD h]
  simp only [List.all_eq_true, List.mem_range, beq_iff_eq]
  constructor
  · intro hk
    exact ⟨hk 0 (by omega), fun j hj => by rw [Nat.add_assoc]; exact hk (1 + j) (by omega)⟩
  · rintro ⟨hfirst, hrest⟩ k hk
    rcases k with _ | j
    · exact hfirst
    · have := hrest j (by omega)
      rwa [Nat.add_assoc, Nat.add_comm 1 j] at this

theorem not_matchAt_past_window {i : Nat} (hm : 2 ≤ p.length) (hn : i + p.length < s.length)
    (hbloom : bloomQuery (ofPattern p).mask (s.getD (i + p.length) 0) = false) :
    ∀ k, i < k → k ≤ i + p.length → ¬ MatchAt p s k := fun _ hik hki =>
  not_matchAt_of_not_mem (getElem?_eq_some_getD hn) (not_mem_of_bloomQuery hm hbloom) hki
    (by omega)

theorem not_matchAt_before_window {i : Nat} (hm : 2 ≤ p.length) (hi : 0 < i)
    (hn : i ≤ s.length) (hbloom : bloomQuery (ofPattern p).mask (s.getD (i - 1) 0) = false) :
    ∀ k, i - p.length ≤ k → k < i → ¬ MatchAt p s k := fun _ hik hki =>
  not_matchAt_of_not_mem (getElem?_eq_some_getD (by omega)) (not_mem_of_bloomQuery hm hbloom)
    (by omega) (by omega)

theorem not_matchAt_of_skip {i : Nat} (h : i + p.length ≤ s.length)
    (hlast : s.getD (i + p.length - 1) 0 = p.getD (p.length - 1) 0) :
    ∀ k, i < k → k ≤ i + skipOf p → ¬ MatchAt p s k := by
  intro k hik hks
  obtain ⟨hle, hskip⟩ := skipOf_spec p
  refine not_matchAt_of_ne (k := p.length - 1 - (k - i)) (c := p.getD (p.length - 1) 0)
    ?_ (by omega) ?_
  · rw [show k + (p.length - 1 - (k - i)) = i + p.length - 1 by omega, ← hlast]
    exact getElem?_eq_some_getD (by omega)
  · rw [getElem?_eq_some_getD (by omega)]
    exact fun heq => hskip (k - i) (by omega) (by omega) (Option.some.inj heq)

theorem not_matchAt_of_rskip {i : Nat} (hm : 2 ≤ p.length) (h : i + p.length ≤ s.length)
    (hfirst : s.getD i 0 = p.getD 0 0) : ∀ k, i - rskipOf p ≤ k → k < i → ¬ MatchAt p s k := by
  intro k hik hki
  obtain ⟨hle, hskip⟩ := rskipOf_spec p hm
  refine not_matchAt_of_ne (k := i - k) (c := p.getD 0 0) ?_ (by omega) ?_
  · rw [show k + (i - k) = i by omega, ← hfirst]
    exact getElem?_eq_some_getD (by omega)
  · rw [getElem?_eq_some_getD (by omega)]
    exact fun heq => hskip (i - k) (by omega) (by omega) (Option.some.inj heq)

/-! ### The loops -/

@[simp] theorem ofPattern_pattern (p : Bytes) : (ofPattern p).pattern = p := by
  unfold ofPattern
  split <;> rfl

theorem ofPattern_skip (hm : 2 ≤ p.length) : (ofPattern p).skip = skipOf p := by
  simp [ofPattern, show ¬ p.length ≤ 1 by omega]

theorem ofPattern_rskip (hm : 2 ≤ p.length) : (ofPattern p).rskip = rskipOf p := by
  simp [ofPattern, show ¬ p.length ≤ 1 by omega]

theorem not_matchAt_below_next {i shift : Nat} (hm : 2 ≤ p.length) (hno : ¬ MatchAt p s i)
    (hshift : ∀ k, i < k → k ≤ i + shift → ¬ MatchAt p s k) :
    ∀ k, i ≤ k → k < (if (decide (i + p.length < s.length) &&
      !bloomQuery (ofPattern p).mask (s.getD (i + p.length) 0)) = true then i + p.length
      else i + shift) + 1 → ¬ MatchAt p s k := by
  intro k hik hk
  rcases Nat.eq_or_lt_of_le hik with rfl | hik
  · exact hno
  · split_ifs at hk with hpast
    · simp only [Bool.and_eq_true, decide_eq_true_eq, Bool.not_eq_true'] at hpast
      exact not_matchAt_past_window hm hpast.1 hpast.2 k hik (by omega)
    · exact hshift k hik (by omega)

theorem not_matchAt_above_next {i shift : Nat} (hm : 2 ≤ p.length) (h : i + p.length ≤ s.length)
    (hno : ¬ MatchAt p s i) (hshift : ∀ k, i - shift ≤ k → k < i → ¬ MatchAt p s k) :
    ∀ k, (if (decide (0 < i) && !bloomQuery (ofPattern p).mask (s.getD (i - 1) 0)) = true then
      i - p.length else i - shift) ≤ k → k < i + 1 → ¬ MatchAt p s k := by
  intro k hk hki
  rcases Nat.lt_succ_iff_lt_or_eq.1 hki with hki | rfl
  · split_ifs at hk with hbefore
    · simp only [Bool.and_eq_true, decide_eq_true_eq, Bool.not_eq_true'] at hbefore
      exact not_matchAt_before_window hm hbefore.1 (by omega) hbefore.2 k hk hki
    · exact hshift k hk hki
  · exact hno

theorem searchLoop_eq (hm : 2 ≤ p.length) (s : Bytes) {fuel i : Nat}
    (hfuel : s.length + 1 ≤ i + p.length + fuel) :
    searchLoop (ofPattern p) s fuel i = firstMatchFrom p s i := by
  induction fuel generalizing i with
  | zero => rw [searchLoop, firstMatchFrom_of_lt (by omega)]
  | succ fuel ih =>
    rw [searchLoop]
    simp only [ofPattern_pattern, ofPattern_skip hm]
    by_cases hroom : s.length < i + p.length
    · rw [if_pos hroom, firstMatchFrom_of_lt hroom]
    rw [if_neg hroom]
    have hfit : i + p.length ≤ s.length := by omega
    have hmove : ∀ shift, ¬ MatchAt p s i → (∀ k, i < k → k ≤ i + shift → ¬ MatchAt p s k) →
        searchLoop (ofPattern p) s fuel ((if (decide (i + p.length < s.length) &&
          !bloomQuery (ofPattern p).mask (s.getD (i + p.length) 0)) = true then i + p.length
          else i + shift) + 1) = firstMatchFrom p s i := by
      intro shift hno hshift
      rw [ih (by split <;> omega)]
      exact (firstMatchFrom_skip (by split <;> omega) (not_matchAt_below_next hm hno hshift)).symm
    by_cases hlast : s.getD (i + p.length - 1) 0 = p.getD (p.length - 1) 0
    · rw [if_pos hlast]
      by_cases hall : ((List.range (p.length - 1)).all fun j => s.getD (i + j) 0 == p.getD j 0) = true
      · rw [if_pos hall]
        exact (firstMatchFrom_of_matchAt ((matchAt_iff_search hm hfit).2 ⟨hlast, hall⟩)).symm
      · rw [if_neg hall]
        exact hmove _ (fun h => hall ((matchAt_iff_search hm hfit).1 h).2)
          (not_matchAt_of_skip hfit hlast)
    · rw [if_neg hlast]
      exact hmove 0 (fun h => hlast ((matchAt_iff_search hm hfit).1 h).1) fun k hik hk => by omega

theorem rsearchLoop_eq (hm : 2 ≤ p.length) (s : Bytes) {fuel t : Nat} (hfuel : t ≤ fuel)
    (ht : t ≤ s.length + 1 - p.length) :
    rsearchLoop (ofPattern p) s fuel t = lastMatchBelow p s t := by
  induction fuel generalizing t with
  | zero =>
    rw [show t = 0 by omega]
    rfl
  | succ fuel ih =>
    cases t with
    | zero => rfl
    | succ i =>
      rw [rsearchLoop]
      simp only [ofPattern_pattern, ofPattern_rskip hm]
      have hfit : i + p.length ≤ s.length := by omega
      have hmove : ∀ shift, ¬ MatchAt p s i → (∀ k, i - shift ≤ k → k < i → ¬ MatchAt p s k) →
          rsearchLoop (ofPattern p) s fuel (if (decide (0 < i) &&
            !bloomQuery (ofPattern p).mask (s.getD (i - 1) 0)) = true then i - p.length
            else i - shift) = lastMatchBelow p s (i + 1) := by
        intro shift hno hshift
        rw [ih (by split <;> omega) (by split <;> omega)]
        exact (lastMatchBelow_skip (by split <;> omega) (not_matchAt_above_next hm hfit hno hshift)).symm
      by_cases hfirst : s.getD i 0 = p.getD 0 0
      · rw [if_pos hfirst]
        by_cases hall : ((List.range (p.length - 1)).all fun j =>
            s.getD (i + 1 + j) 0 == p.getD (1 + j) 0) = true
        · rw [if_pos hall]
          exact (lastMatchBelow_succ_of_matchAt ((matchAt_iff_rsearch hm hfit).2 ⟨hfirst, hall⟩)).symm
        · rw [if_neg hall]
          exact hmove _ (fun h => hall ((matchAt_iff_rsearch hm hfit).1 h).2)
            (not_matchAt_of_rskip hm hfit hfirst)
      · rw [if_neg hfirst]
        exact hmove 0 (fun h => hfirst ((matchAt_iff_rsearch hm hfit).1 h).1) fun k hik hk => by omega

/-! ### `Search` and `RSearch` -/

theorem matchAt_singleton {c : UInt8} {j : Nat} : MatchAt [c] s j ↔ s[j]? = some c := by
  constructor
  · intro h
    simpa using h.2 0 (by simp)
  · intro h
    have hlt : j < s.length := (List.getElem?_eq_some_iff.1 h).1
    exact ⟨by simp; omega, fun k hk => by simpa [show k = 0 by simpa using hk] using h⟩

theorem findIdx?_eq_firstMatchFrom (c : UInt8) (s : Bytes) :
    s.findIdx? (· == c) = firstMatchFrom [c] s 0 := by
  apply Option.ext
  intro j
  rw [List.findIdx?_eq_some_iff_getElem, firstMatchFrom_eq_some_iff]
  simp only [matchAt_singleton, beq_iff_eq, Nat.zero_le, true_and, List.getElem?_eq_some_iff]
  constructor
  · rintro ⟨hj, hc, hbefore⟩
    exact ⟨⟨hj, hc⟩, fun k _ hkj ⟨hk, hck⟩ => hbefore k hkj hck⟩
  · rintro ⟨⟨hj, hc⟩, hbefore⟩
    exact ⟨hj, hc, fun k hkj hck => hbefore k trivial hkj ⟨by omega, hck⟩⟩

theorem find?_range_eq_lastMatchBelow (c : UInt8) (s : Bytes) {t : Nat} (ht : t ≤ s.length) :
    ((List.range t).reverse.find? fun k => s.getD k 0 == c) = lastMatchBelow [c] s t := by
  induction t with
  | zero => rfl
  | succ t ih =>
    rw [List.range_succ, List.reverse_append, List.reverse_singleton, List.singleton_append,
      List.find?_cons, lastMatchBelow, ih (by omega), getD_eq_iff_getElem? (by omega)]
    by_cases hc : s[t]? = some c
    · simp [hc, matchAt_singleton]
    · simp [hc, matchAt_singleton]

theorem search_eq (p s : Bytes) :
    (ofPattern p).search s = if p = [] then -1 else ((firstMatchFrom p s 0).map Int.ofNat).getD (-1) := by
  unfold search
  rw [ofPattern_pattern]
  rcases p with _ | ⟨c, _ | ⟨d, rest⟩⟩
  · rfl
  · simp [findIdx?_eq_firstMatchFrom]
  · simp only [reduceCtorEq, if_false]
    rw [searchLoop_eq (by simp) s (by omega)]

theorem rsearch_eq (p s : Bytes) :
    (ofPattern p).rsearch s =
      if p = [] then -1 else ((lastMatchBelow p s (s.length + 1 - p.length)).map Int.ofNat).getD (-1) := by
  unfold rsearch
  rw [ofPattern_pattern]
  rcases p with _ | ⟨c, _ | ⟨d, rest⟩⟩
  · rfl
  · simp only [reduceCtorEq, if_false, List.length_cons, List.length_nil, Nat.add_sub_cancel]
    rw [find?_range_eq_lastMatchBelow c s (Nat.le_refl _)]
  · simp only [reduceCtorEq, if_false]
    rw [rsearchLoop_eq (by simp) s (by omega) (by omega)]

end StringSearch

end Impala
