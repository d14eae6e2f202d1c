import Impala.Exprs.StringFunctions
import Impala.Runtime.StringSearch

/-!
The string functions that search with `StringSearch` (exprs/string-functions-ir.cc): `Instr`,
`Locate` and `LocatePos` in byte mode.

`Instr` takes `int64_t` positions and keeps the start in an `int`, so the start it searches
from is `toSigned 32` of the one it is given. Within `int` range it returns exactly what it is
meant to (`instr_eq_instrSpec`); past it, the start wraps.
-/

set_option autoImplicit false

namespace Impala.StringFunctions

open MachineInt PatternMatch

/-! ## `Instr` -/

/-- The error `Instr` sets for an occurrence that is not positive. -/
def errorInvalidOccurrence (occurrence : Int) : String :=
  "Invalid occurrence parameter to instr function: " ++ toString occurrence

def substringPrefix (s : Bytes) (newLen : Int) : Bytes :=
  if newLen < 0 then s else s.take newLen.toNat

def matchResult (matchPos : Option Nat) : Int :=
  (matchPos.map fun m => (m : Int) + 1).getD 0

/-- The loop of `Instr` from the left: the offset of the last of `occ` matches, each searched
for in the string past the one before. -/
def instrForward (search : StringSearch) (haystack : Bytes) : Nat → Nat → Option Nat
  | 0, _ => none
  | occ + 1, searchStartPos =>
    let matchPosInSubstring := search.search (haystack.drop searchStartPos)
    if matchPosInSubstring < 0 then none
    else
      let matchPos := searchStartPos + matchPosInSubstring.toNat
      if occ = 0 then some matchPos else instrForward search haystack occ (matchPos + 1)

/-- The loop of `Instr` from the right: the offset of the last of `occ` matches, each searched
for in the string up to the end of a window at `search_start_pos`, one before the previous
match. The sum `search_start_pos + needle_s.len` is an `int`. -/
def instrBackward (search : StringSearch) (haystack : Bytes) : Nat → Int → Option Nat
  | 0, _ => none
  | occ + 1, searchStartPos =>
    let matchPos := search.rsearch
      (substringPrefix haystack (toSigned 32 (searchStartPos + search.pattern.length)))
    if matchPos < 0 then none
    else if occ = 0 then some matchPos.toNat else instrBackward search haystack occ (matchPos - 1)

/-- `StringFunctions::Instr(context, str, substr, start_position, occurrence)` in byte mode: the
error it sets, and the `IntVal` it returns. A positive start whose low 32 bits are negative has
`Substring` start before the string, and the search reads outside it: that result is `none`. -/
def instr (str substr : Bytes) (startPosition occurrence : Int) : Option String × Option Int :=
  if occurrence ≤ 0 then (some (errorInvalidOccurrence occurrence), some 0)
  else if startPosition = 0 then (none, some 0)
  else if 0 < startPosition then
    let searchStartPos := toSigned 32 (startPosition - 1)
    if str.length ≤ searchStartPos then (none, some 0)
    else if searchStartPos < 0 then (none, none)
    else (none, some (matchResult
      (instrForward (.ofPattern substr) str occurrence.toNat searchStartPos.toNat)))
  else
    let searchStartPos := toSigned 32 (str.length + startPosition)
    let searchStartPos :=
      if str.length < toSigned 32 (searchStartPos + substr.length) then
        (str.length : Int) - substr.length
      else searchStartPos
    if searchStartPos < 0 then (none, some 0)
    else (none, some (matchResult
      (instrBackward (.ofPattern substr) str occurrence.toNat searchStartPos)))

def locate (substr str : Bytes) : Option String × Option Int := instr str substr 1 1

def locatePos (substr str : Bytes) (startPos : Int) : Option String × Option Int :=
  if startPos ≤ 0 ∨ str.length < startPos then (none, some 0) else instr str substr startPos 1

/-! ## What `Instr` is for -/

/-- The offsets `Search` can return: the occurrences of a pattern that is not empty. -/
def matchOffsets (p s : Bytes) : List Nat := if p = [] then [] else occurrences p s

/-- One more than the offset of the `occ`-th occurrence of `p` in `s` at or after byte
`start - 1` (`start > 0`), or at or before byte `|s| + start` counting from the right
(`start < 0`); `0` where there is no such occurrence, for `start = 0`, and for a positive start
beyond the string. -/
def instrSpec (s p : Bytes) (start : Int) (occ : Nat) : Int :=
  if 0 < start then
    if (s.length : Int) < start then 0
    else matchResult
      ((matchOffsets p s).filter (fun (j : Nat) => decide (start - 1 ≤ (j : Int))))[occ - 1]?
  else if start < 0 then
    matchResult
      ((matchOffsets p s).reverse.filter (fun (j : Nat) => decide ((j : Int) ≤ s.length + start)))[occ - 1]?
  else 0

theorem mem_matchOffsets {p s : Bytes} {j : Nat} :
    j ∈ matchOffsets p s ↔ p ≠ [] ∧ MatchAt p s j := by
  unfold matchOffsets
  split_ifs with hp
  · simp [hp]
  · simp [hp, mem_occurrences]

/-! ## The loops -/

section Loops

variable (p s : Bytes)

theorem search_drop (hp : p ≠ []) {k : Nat} (hk : k ≤ s.length) :
    (StringSearch.ofPattern p).search (s.drop k) =
      ((firstMatchFrom p s k).map fun j => ((j - k : Nat) : Int)).getD (-1) := by
  rw [StringSearch.search_eq, if_neg hp, firstMatchFrom_drop hk, Option.map_map]
  rfl

theorem rsearch_take (hp : p ≠ []) {t : Nat} (ht : t ≤ s.length) (hpt : p.length ≤ t + 1) :
    (StringSearch.ofPattern p).rsearch (s.take t) =
      ((lastMatchBelow p s (t + 1 - p.length)).map Int.ofNat).getD (-1) := by
  rw [StringSearch.rsearch_eq, if_neg hp, List.length_take_of_le ht,
    lastMatchBelow_take (by omega)]

theorem instrForward_succ (hp : p ≠ []) (occ : Nat) {k : Nat} (hk : k ≤ s.length) :
    instrForward (.ofPattern p) s (occ + 1) k =
      (firstMatchFrom p s k).bind fun j =>
        if occ = 0 then some j else instrForward (.ofPattern p) s occ (j + 1) := by
  rw [instrForward, search_drop p s hp hk]
  cases h : firstMatchFrom p s k with
  | none => simp
  | some j =>
    have hkj := (firstMatchFrom_eq_some_iff.1 h).1
    simp only [Option.map_some, Option.getD_some, Option.bind_some]
    rw [if_neg (by omega), Int.toNat_natCast, Nat.add_sub_cancel' hkj]

theorem instrForward_eq (occ : Nat) {k : Nat} (hk : k ≤ s.length) :
    instrForward (.ofPattern p) s (occ + 1) k =
      ((matchOffsets p s).filter fun j => decide (k ≤ j))[occ]? := by
  by_cases hp : p = []
  · simp [instrForward, matchOffsets, hp, StringSearch.search_eq]
  rw [matchOffsets, if_neg hp]
  induction occ generalizing k with
  | zero =>
    rw [instrForward_succ p s hp 0 hk]
    cases h : firstMatchFrom p s k with
    | none => rw [occurrences_filter_of_firstMatchFrom_none h]; rfl
    | some j => rw [occurrences_filter_of_firstMatchFrom h]; rfl
  | succ occ ih =>
    rw [instrForward_succ p s hp (occ + 1) hk]
    cases h : firstMatchFrom p s k with
    | none => rw [occurrences_filter_of_firstMatchFrom_none h]; rfl
    | some j =>
      have hj : j + 1 ≤ s.length := by
        have := (firstMatchFrom_eq_some_iff.1 h).2.1.le
        have := List.length_pos_of_ne_nil hp
        omega
      rw [occurrences_filter_of_firstMatchFrom h, Option.bind_some, if_neg (Nat.succ_ne_zero _),
        ih hj]
      simp only [List.getElem?_cons_succ, Nat.lt_iff_add_one_le]

theorem instrBackward_succ (hp : p ≠ []) (hlen : s.length < 2 ^ 31) (occ : Nat) {k : Int}
    (hk1 : -1 ≤ k) (hk : k + p.length ≤ s.length) :
    instrBackward (.ofPattern p) s (occ + 1) k =
      (lastMatchBelow p s (k + 1).toNat).bind fun j =>
        if occ = 0 then some j else instrBackward (.ofPattern p) s occ ((j : Int) - 1) := by
  have hm := List.length_pos_of_ne_nil hp
  have hprefix : substringPrefix s (toSigned 32 (k + p.length)) = s.take (k + p.length).toNat := by
    rw [toSigned_of_fitsInt ⟨by omega, by omega⟩, substringPrefix, if_neg (by omega)]
  rw [instrBackward, StringSearch.ofPattern_pattern, hprefix,
    rsearch_take p s hp (by omega) (by omega), show (k + p.length).toNat + 1 - p.length =
      (k + 1).toNat by omega]
  cases lastMatchBelow p s (k + 1).toNat with
  | none => simp
  | some j =>
    simp only [Option.map_some, Option.getD_some, Option.bind_some, Int.ofNat_eq_natCast]
    rw [if_neg (by omega), Int.toNat_natCast]

theorem instrBackward_eq (hlen : s.length < 2 ^ 31) (occ : Nat) {k : Int} (hk1 : -1 ≤ k)
    (hk : k + p.length ≤ s.length) :
    instrBackward (.ofPattern p) s (occ + 1) k =
      ((matchOffsets p s).reverse.filter fun (j : Nat) => decide ((j : Int) ≤ k))[occ]? := by
  by_cases hp : p = []
  · simp [instrBackward, matchOffsets, hp, StringSearch.rsearch_eq]
  rw [matchOffsets, if_neg hp]
  have hbelow : ∀ k : Int, ((occurrences p s).reverse.filter fun (j : Nat) => decide ((j : Int) ≤ k)) =
      (occurrences p s).reverse.filter fun j => decide (j < (k + 1).toNat) :=
    fun k => List.filter_congr fun j _ => by simp only [decide_eq_decide]; omega
  rw [hbelow]
  induction occ generalizing k with
  | zero =>
    rw [instrBackward_succ p s hp hlen 0 hk1 hk]
    cases h : lastMatchBelow p s (k + 1).toNat with
    | none => rw [occurrences_filter_of_lastMatchBelow_none h]; rfl
    | some j => rw [occurrences_filter_of_lastMatchBelow h]; rfl
  | succ occ ih =>
    rw [instrBackward_succ p s hp hlen (occ + 1) hk1 hk]
    cases h : lastMatchBelow p s (k + 1).toNat with
    | none => rw [occurrences_filter_of_lastMatchBelow_none h]; rfl
    | some j =>
      have hj : (j : Int) - 1 + p.length ≤ s.length := by
        have := (lastMatchBelow_eq_some_iff.1 h).2.1.le
        omega
      rw [occurrences_filter_of_lastMatchBelow h, Option.bind_some, if_neg (Nat.succ_ne_zero _),
        ih (by omega) hj, show ((j : Int) - 1 + 1).toNat = j by omega]
      rfl

end Loops

/-! ## `Instr` within `int` range -/

theorem instr_of_pos (str substr : Bytes) {start occurrence : Int} (hocc : 0 < occurrence)
    (hpos : 0 < start) (hfit : start ≤ 2 ^ 31) :
    instr str substr start occurrence = (none, some (instrSpec str substr start occurrence.toNat)) := by
  unfold instr instrSpec
  rw [if_neg (by omega), if_neg (by omega), if_pos hpos, if_pos hpos,
    toSigned_of_fitsInt ⟨by omega, by omega⟩]
  by_cases hbeyond : (str.length : Int) < start
  · rw [if_pos (by omega), if_pos hbeyond]
  rw [if_neg (by omega), if_neg (by omega), if_neg hbeyond]
  obtain ⟨n, hn⟩ : ∃ n, occurrence.toNat = n + 1 := ⟨occurrence.toNat - 1, by omega⟩
  have hfilter : ((matchOffsets substr str).filter fun j => decide ((start - 1).toNat ≤ j)) =
      (matchOffsets substr str).filter fun (j : Nat) => decide (start - 1 ≤ (j : Int)) :=
    List.filter_congr fun j _ => by simp only [decide_eq_decide]; omega
  rw [hn, instrForward_eq substr str n (by omega), Nat.add_sub_cancel, hfilter]

theorem instr_of_neg (str substr : Bytes) {start occurrence : Int} (hocc : 0 < occurrence)
    (hneg : start < 0) (hfit : -2 ^ 31 ≤ start) (hlen : str.length + substr.length < 2 ^ 31) :
    instr str substr start occurrence = (none, some (instrSpec str substr start occurrence.toNat)) := by
  rw [instrSpec, if_neg (show ¬ 0 < start by omega), if_pos hneg]
  unfold instr
  have hstart : toSigned 32 (str.length + start) = str.length + start :=
    toSigned_of_fitsInt ⟨by omega, by omega⟩
  have hend : toSigned 32 (str.length + start + substr.length) = str.length + start + substr.length :=
    toSigned_of_fitsInt ⟨by omega, by omega⟩
  rw [if_neg (show ¬ occurrence ≤ 0 by omega), if_neg (show ¬ start = 0 by omega),
    if_neg (show ¬ 0 < start by omega)]
  simp only [hstart, hend]
  set k : Int := if (str.length : Int) < str.length + start + substr.length then
    (str.length : Int) - substr.length else str.length + start with hk
  have hkle : k + substr.length ≤ str.length := by rw [hk]; split_ifs <;> omega
  have hsame : ((matchOffsets substr str).reverse.filter fun (j : Nat) => decide ((j : Int) ≤ k)) =
      (matchOffsets substr str).reverse.filter fun (j : Nat) => decide ((j : Int) ≤ str.length + start) := by
    refine List.filter_congr fun j hj => ?_
    have hfit := (mem_matchOffsets.1 (List.mem_reverse.1 hj)).2.le
    simp only [decide_eq_decide]
    rw [hk]
    split_ifs <;> omega
  obtain ⟨n, hn⟩ : ∃ n, occurrence.toNat = n + 1 := ⟨occurrence.toNat - 1, by omega⟩
  by_cases hk0 : k < 0
  · rw [if_pos hk0, hn, Nat.add_sub_cancel, ← hsame, List.filter_eq_nil_iff.2]
    · rfl
    intro j hj hjk
    have hfit := (mem_matchOffsets.1 (List.mem_reverse.1 hj)).2.le
    simp only [decide_eq_true_eq] at hjk
    omega
  rw [if_neg hk0, hn, instrBackward_eq substr str (by omega) n (by omega) hkle,
    Nat.add_sub_cancel, hsame]

theorem instr_eq_instrSpec (str substr : Bytes) {startPosition occurrence : Int}
    (hocc : 0 < occurrence) (hstart : FitsInt startPosition)
    (hlen : str.length + substr.length < 2 ^ 31) :
    instr str substr startPosition occurrence =
      (none, some (instrSpec str substr startPosition occurrence.toNat)) := by
  rcases lt_trichotomy startPosition 0 with hneg | rfl | hpos
  · exact instr_of_neg str substr hocc hneg hstart.1 hlen
  · simp [instr, instrSpec, not_le.2 hocc]
  · exact instr_of_pos str substr hocc hpos (le_of_lt hstart.2)

theorem locate_eq (substr str : Bytes) :
    locate substr str = (none, some (instrSpec str substr 1 1)) :=
  instr_of_pos str substr Int.one_pos Int.one_pos (by decide)

theorem locatePos_eq (substr str : Bytes) (startPos : Int) (hlen : str.length < 2 ^ 31) :
    locatePos substr str startPos =
      (none, some (if startPos ≤ 0 ∨ str.length < startPos then 0
        else instrSpec str substr startPos 1)) := by
  unfold locatePos
  split_ifs with h
  · rfl
  · exact instr_of_pos str substr Int.one_pos (by omega) (by omega)

/-- `instr`, `locate` and the three-argument `locate` return what MySQL's `INSTR` defines: the
position of the wanted occurrence of `substr` at or after a positive start, or at or before a
negative one counted from the end, `0` where there is none, for every `int` start and every pair
of strings shorter together than `2^31` bytes. An occurrence count below one is an error. -/
theorem instr_locate_spec (str substr : Bytes) (startPosition occurrence : Int)
    (hstart : FitsInt startPosition) (hlen : str.length + substr.length < 2 ^ 31) :
    (0 < occurrence → instr str substr startPosition occurrence =
      (none, some (instrSpec str substr startPosition occurrence.toNat))) ∧
    (occurrence ≤ 0 → instr str substr startPosition occurrence =
      (some (errorInvalidOccurrence occurrence), some 0)) ∧
    locate substr str = (none, some (instrSpec str substr 1 1)) ∧
    locatePos substr str startPosition =
      (none, some (if startPosition ≤ 0 ∨ str.length < startPosition then 0
        else instrSpec str substr startPosition 1)) :=
  ⟨fun hocc => instr_eq_instrSpec str substr hocc hstart hlen,
    fun hocc => by rw [instr, if_pos hocc],
    locate_eq substr str, locatePos_eq substr str startPosition (by omega)⟩

theorem instr_locate_spec_second :
    instr [97, 98, 99, 97, 98, 99] [98, 99] 2 2 = (none, some 5) := by
  rw [(instr_locate_spec [97, 98, 99, 97, 98, 99] [98, 99] 2 2 (by unfold FitsInt; norm_num)
    (by decide)).1 (by decide)]
  decide

/-! ## Past `int` range -/

theorem instr_add_two_pow_32 (str substr : Bytes) {t : Int} (occurrence : Int) (ht : 0 < t) :
    instr str substr (2 ^ 32 + t) occurrence = instr str substr t occurrence := by
  have hwrap : toSigned 32 (2 ^ 32 + t - 1) = toSigned 32 (t - 1) := by
    rw [show (2 : Int) ^ 32 + t - 1 = t - 1 + 2 ^ 32 by omega, toSigned_add_two_pow]
  unfold instr
  rw [if_neg (by omega : ¬ (2 : Int) ^ 32 + t = 0), if_pos (by omega : (0 : Int) < 2 ^ 32 + t),
    if_neg (by omega : ¬ t = 0), if_pos ht, hwrap]

theorem instr_start_wraps (str substr : Bytes) {t occurrence : Int} (hocc : 0 < occurrence)
    (ht : 0 < t) (ht' : t < 2 ^ 31) (hlen : str.length < 2 ^ 31) :
    instr str substr (2 ^ 32 + t) occurrence =
        (none, some (instrSpec str substr t occurrence.toNat)) ∧
      instrSpec str substr (2 ^ 32 + t) occurrence.toNat = 0 := by
  refine ⟨?_, ?_⟩
  · rw [instr_add_two_pow_32 str substr occurrence ht]
    exact instr_of_pos str substr hocc ht (le_of_lt ht')
  · unfold instrSpec
    rw [if_pos (by omega), if_pos (by omega)]

theorem instr_start_wraps_a :
    instr [97] [97] (2 ^ 32 + 1) 1 = (none, some 1) ∧ instrSpec [97] [97] (2 ^ 32 + 1) 1 = 0 := by
  obtain ⟨h, hspec⟩ := @instr_start_wraps [97] [97] 1 1 (by decide) (by decide) (by decide)
    (by decide)
  refine ⟨h.trans ?_, hspec⟩
  decide

/-! ## `Replace` -/

def errorStringLengthLimit : String :=
  "String length larger than allowed limit of 1 GB character data."

def roundUpToPowerOfTwo (v : Nat) : Nat :=
  let v := v - 1
  let v := v ||| v >>> 1
  let v := v ||| v >>> 2
  let v := v ||| v >>> 4
  let v := v ||| v >>> 8
  let v := v ||| v >>> 16
  let v := v ||| v >>> 32
  v + 1

/-- The result buffer of `Replace`: the bytes written before `ptr`, and `buffer_space`, the size
of its allocation. -/
structure ReplaceBuffer where
  out : Bytes
  bufferSpace : Nat

/-- `memcpy(ptr, src, len)` and `ptr += len`; `none` where the copy would pass the end of the
allocation. -/
def ReplaceBuffer.copy (b : ReplaceBuffer) (src : Bytes) : Option ReplaceBuffer :=
  if b.out.length + src.length ≤ b.bufferSpace then some ⟨b.out ++ src, b.bufferSpace⟩ else none

/-- The first `buffer_space`: for a short string and a pattern a little shorter than its
replacement, one replacement for each place the pattern's first byte is at. -/
def replaceBufferSpace (str pattern : Bytes) (delta : Int) : Int :=
  if (0 < delta ∧ delta < 128) ∧ str.length ≤ 128 then
    let c := pattern.getD 0 0
    let matchesPossible :=
      ((List.range (str.length - pattern.length + 1)).filter fun i => str.getD i 0 = c).length
    str.length + matchesPossible * delta
  else str.length + delta

/-- The check after a match, for an enlarging pattern: where one more replacement and the
`bytes_remaining` would not fit, the buffer is resized to the next power of two (`Resize` keeps
the bytes written), or the error where that passes `MAX_LENGTH`. -/
def ReplaceBuffer.reserve (buf : ReplaceBuffer) (bytesRemaining : Nat) (delta : Int) :
    Except String ReplaceBuffer :=
  let spaceNeeded : Int := buf.out.length + bytesRemaining + delta
  if 0 < delta ∧ (buf.bufferSpace : Int) < spaceNeeded then
    if maxLength < spaceNeeded then .error (errorCharacterLimitExceeded "replace() result")
    else .ok ⟨buf.out, min maxLength.toNat (roundUpToPowerOfTwo spaceNeeded.toNat)⟩
  else .ok buf

/-- The `while` loop of `Replace` from a match at `match_pos`, with the bytes before `consumed`
replaced into the buffer. It ends with the buffer and `consumed` at the `break`, or with the
error and NULL where the result would be too long; `none` is a copy past the allocation. -/
def replaceLoop (search : StringSearch) (haystack replace : Bytes) (delta : Int) :
    Nat → ReplaceBuffer → Nat → Nat → Option (Option String × Option (ReplaceBuffer × Nat))
  | 0, _, _, _ => none
  | fuel + 1, buf, consumed, matchPos =>
    if haystack.length < matchPos + search.pattern.length then some (none, some (buf, consumed))
    else
      (buf.copy ((haystack.drop consumed).take (matchPos - consumed))).bind fun buf =>
      (buf.copy replace).bind fun buf =>
      let consumed := matchPos + search.pattern.length
      let matchPosInSubstring := search.search (haystack.drop consumed)
      if matchPosInSubstring < 0 then some (none, some (buf, consumed))
      else
        match buf.reserve (haystack.length - consumed) delta with
        | .error e => some (some e, none)
        | .ok buf => replaceLoop search haystack replace delta fuel buf consumed
            (consumed + matchPosInSubstring.toNat)

/-- `StringFunctions::Replace(context, str, pattern, replace)`: the error it sets and the
`StringVal` it returns, or `none` where a `memcpy` would write past the result's allocation. -/
def replace (str pattern replace : Bytes) : Option (Option String × Result) :=
  if pattern.length = 0 ∨ str.length < pattern.length then some (none, .view .str 0 str.length)
  else
    let search := StringSearch.ofPattern pattern
    let matchPos := search.search str
    if matchPos < 0 then some (none, .view .str 0 str.length)
    else
      let delta : Int := (replace.length : Int) - pattern.length
      let bufferSpace := replaceBufferSpace str pattern delta
      if maxLength < bufferSpace then some (some errorStringLengthLimit, .null)
      else
        (replaceLoop search str replace delta (str.length + 1) ⟨[], bufferSpace.toNat⟩ 0
          matchPos.toNat).bind fun
          | (err, none) => some (err, .null)
          | (err, some (buf, consumed)) =>
            (buf.copy (str.drop consumed)).map fun buf => (err, .fresh buf.out)

/-! ### The buffer -/

theorem le_roundUpToPowerOfTwo (v : Nat) : v ≤ roundUpToPowerOfTwo v := by
  have step : ∀ {x y : Nat} (k : Nat), y ≤ x → y ≤ x ||| x >>> k :=
    fun _ h => Nat.le_trans h Nat.left_le_or
  unfold roundUpToPowerOfTwo
  dsimp only
  have := step 32 (step 16 (step 8 (step 4 (step 2 (step 1 (Nat.le_refl (v - 1)))))))
  omega

theorem ReplaceBuffer.copy_of_le {b : ReplaceBuffer} {src : Bytes}
    (h : b.out.length + src.length ≤ b.bufferSpace) :
    b.copy src = some ⟨b.out ++ src, b.bufferSpace⟩ :=
  if_pos h

theorem ReplaceBuffer.reserve_eq_error {buf : ReplaceBuffer} {bytesRemaining : Nat} {delta : Int}
    {e : String} (h : buf.reserve bytesRemaining delta = .error e) :
    e = errorCharacterLimitExceeded "replace() result" ∧ 0 < delta ∧
      maxLength < buf.out.length + bytesRemaining + delta := by
  unfold reserve at h
  dsimp only at h
  split_ifs at h with hgrow hmax
  · cases h
    exact ⟨rfl, hgrow.1, hmax⟩

theorem ReplaceBuffer.reserve_eq_ok {buf buf' : ReplaceBuffer} {bytesRemaining : Nat} {delta : Int}
    (hb : (buf.bufferSpace : Int) ≤ maxLength) (h : buf.reserve bytesRemaining delta = .ok buf') :
    buf'.out = buf.out ∧ (buf'.bufferSpace : Int) ≤ maxLength ∧
      (0 < delta → (buf.out.length : Int) + bytesRemaining + delta ≤ buf'.bufferSpace) ∧
      buf.bufferSpace ≤ buf'.bufferSpace := by
  unfold reserve at h
  dsimp only at h
  split_ifs at h with hgrow hmax
  · cases h
    have hround := le_roundUpToPowerOfTwo
      ((buf.out.length : Int) + bytesRemaining + delta).toNat
    dsimp only
    unfold maxLength at hb hmax ⊢
    refine ⟨rfl, by omega, fun _ => by omega, by omega⟩
  · cases h
    exact ⟨rfl, hb, fun hd => by omega, Nat.le_refl _⟩

theorem replaceBufferSpace_ge {str pattern : Bytes} {delta : Int} {m : Nat}
    (hm : MatchAt pattern str m) (hp : pattern ≠ []) :
    str.length + delta ≤ replaceBufferSpace str pattern delta := by
  unfold replaceBufferSpace
  split_ifs with h
  · have hfirst : str.getD m 0 = pattern.getD 0 0 := by
      have h0 := hm.2 0 (List.length_pos_of_ne_nil hp)
      rw [Nat.add_zero] at h0
      simp only [List.getD_eq_getElem?_getD, h0]
    have hcount : 0 < ((List.range (str.length - pattern.length + 1)).filter
        fun i => str.getD i 0 = pattern.getD 0 0).length :=
      List.length_pos_of_mem (a := m) (List.mem_filter.2
        ⟨List.mem_range.2 (by have := hm.le; omega), by simpa using hfirst⟩)
    dsimp only
    generalize ((List.range (str.length - pattern.length + 1)).filter
      fun i => str.getD i 0 = pattern.getD 0 0).length = k at hcount ⊢
    have hk := Int.mul_le_mul_of_nonneg_right (show (1 : Int) ≤ k by omega) (Int.le_of_lt h.1.1)
    rw [Int.one_mul] at hk
    omega
  · exact Int.le_refl _

theorem replaceBufferSpace_of_lt {str pattern : Bytes} {delta : Int}
    (h : maxLength < replaceBufferSpace str pattern delta) :
    replaceBufferSpace str pattern delta = str.length + delta := by
  unfold replaceBufferSpace at h ⊢
  split_ifs at h ⊢ with hshort
  · exfalso
    have hcount : ((List.range (str.length - pattern.length + 1)).filter
        fun i => str.getD i 0 = pattern.getD 0 0).length ≤ 129 :=
      Nat.le_trans (List.length_filter_le _ _) (by simp only [List.length_range]; omega)
    dsimp only at h
    generalize ((List.range (str.length - pattern.length + 1)).filter
      fun i => str.getD i 0 = pattern.getD 0 0).length = k at hcount h
    have hk := Int.mul_le_mul (show (k : Int) ≤ 129 by omega) (Int.le_of_lt hshort.1.2)
      (Int.le_of_lt hshort.1.1) (by omega)
    unfold maxLength at h
    omega
  · rfl

/-! ### The loop of `Replace` -/

section ReplaceLoop

variable (p r s : Bytes)

theorem replaceAll_drop_of_next (hp : p ≠ []) {consumed m : Nat} (hc : consumed ≤ s.length)
    (h : firstMatchFrom p s consumed = some m) :
    replaceAll p r (s.drop consumed) =
      (s.drop consumed).take (m - consumed) ++ r ++ replaceAll p r (s.drop (m + p.length)) := by
  have hcm := (firstMatchFrom_eq_some_iff.1 h).1
  rw [replaceAll_of_firstMatch hp (j := m - consumed) (by rw [firstMatchFrom_drop hc, h]; rfl),
    List.drop_drop, show consumed + (m - consumed + p.length) = m + p.length by omega]

theorem replaceAll_drop_of_none {consumed : Nat} (hc : consumed ≤ s.length)
    (h : firstMatchFrom p s consumed = none) :
    replaceAll p r (s.drop consumed) = s.drop consumed :=
  replaceAll_of_none (by rw [firstMatchFrom_drop hc, h]; rfl)

theorem length_replaceAll_drop_ge (hp : p ≠ []) (hpr : p.length ≤ r.length) {consumed m : Nat}
    (hc : consumed ≤ s.length) (h : firstMatchFrom p s consumed = some m) :
    ((s.length - consumed : Nat) : Int) + r.length - p.length ≤
      (replaceAll p r (s.drop consumed)).length := by
  obtain ⟨hcm, hm, -⟩ := firstMatchFrom_eq_some_iff.1 h
  have hfit := hm.le
  have htail := length_le_replaceAll hpr (s.drop (m + p.length))
  rw [replaceAll_drop_of_next p r s hp hc h]
  simp only [List.length_append, List.length_take, List.length_drop] at htail ⊢
  omega

/-- At the top of the loop of `Replace`: `matchPos` is the next occurrence from `consumed`, the
buffer holds the result for the bytes before `consumed`, and it has room for the rest with one
more replacement. -/
structure ReplaceLoopInv (buf : ReplaceBuffer) (consumed matchPos : Nat) : Prop where
  next : firstMatchFrom p s consumed = some matchPos
  out : buf.out ++ replaceAll p r (s.drop consumed) = replaceAll p r s
  room : (buf.out.length : Int) + (s.length - consumed : Nat) + ((r.length : Int) - p.length) ≤
    buf.bufferSpace
  bounded : (buf.bufferSpace : Int) ≤ maxLength

/-- How the loop of `Replace` ends: NULL with the error where the result is too long, or the
result for the bytes before `consumed`, with no occurrence after it and room for the rest. -/
def ReplaceLoopPost : Option String × Option (ReplaceBuffer × Nat) → Prop
  | (err, none) =>
    err = some (errorCharacterLimitExceeded "replace() result") ∧
      maxLength < (replaceAll p r s).length
  | (err, some (buf, consumed)) =>
    err = none ∧ buf.out ++ s.drop consumed = replaceAll p r s ∧
      buf.out.length + (s.length - consumed) ≤ buf.bufferSpace ∧ (buf.bufferSpace : Int) ≤ maxLength

variable {p r s}

def ReplaceBuffer.step (buf : ReplaceBuffer) (s r : Bytes) (consumed matchPos : Nat) :
    ReplaceBuffer :=
  ⟨buf.out ++ (s.drop consumed).take (matchPos - consumed) ++ r, buf.bufferSpace⟩

namespace ReplaceLoopInv

variable {buf : ReplaceBuffer} {consumed matchPos : Nat}

theorem consumed_le (hinv : ReplaceLoopInv p r s buf consumed matchPos) :
    consumed ≤ matchPos ∧ matchPos + p.length ≤ s.length :=
  have h := firstMatchFrom_eq_some_iff.1 hinv.next
  ⟨h.1, h.2.1.le⟩

theorem length_step (hinv : ReplaceLoopInv p r s buf consumed matchPos) :
    (buf.step s r consumed matchPos).out.length = buf.out.length + (matchPos - consumed) + r.length := by
  have := hinv.consumed_le
  simp only [ReplaceBuffer.step, List.length_append, List.length_take, List.length_drop]
  omega

theorem step_fits (hinv : ReplaceLoopInv p r s buf consumed matchPos) :
    (buf.step s r consumed matchPos).out.length ≤ buf.bufferSpace := by
  have := hinv.consumed_le
  have := hinv.room
  rw [hinv.length_step]
  omega

theorem step_out (hp : p ≠ []) (hinv : ReplaceLoopInv p r s buf consumed matchPos) :
    (buf.step s r consumed matchPos).out ++ replaceAll p r (s.drop (matchPos + p.length)) =
      replaceAll p r s := by
  have := hinv.consumed_le
  rw [← hinv.out, replaceAll_drop_of_next p r s hp (by omega) hinv.next]
  simp only [ReplaceBuffer.step, List.append_assoc]

theorem step_room (hinv : ReplaceLoopInv p r s buf consumed matchPos) :
    ((buf.step s r consumed matchPos).out.length : Int) + (s.length - (matchPos + p.length) : Nat) =
      buf.out.length + (s.length - consumed : Nat) + ((r.length : Int) - p.length) := by
  have := hinv.consumed_le
  rw [hinv.length_step]
  omega

end ReplaceLoopInv

theorem replaceLoop_succ (hp : p ≠ []) (delta : Int) (fuel : Nat) {buf : ReplaceBuffer}
    {consumed matchPos : Nat} (hinv : ReplaceLoopInv p r s buf consumed matchPos) :
    replaceLoop (.ofPattern p) s r delta (fuel + 1) buf consumed matchPos =
      match firstMatchFrom p s (matchPos + p.length) with
      | none => some (none, some (buf.step s r consumed matchPos, matchPos + p.length))
      | some j =>
        match (buf.step s r consumed matchPos).reserve (s.length - (matchPos + p.length)) delta with
        | .error e => some (some e, none)
        | .ok buf' => replaceLoop (.ofPattern p) s r delta fuel buf' (matchPos + p.length) j := by
  have hle := hinv.consumed_le
  have hfits := hinv.step_fits
  have hlen := hinv.length_step
  simp only [ReplaceBuffer.step, List.length_append, List.length_take, List.length_drop] at hfits hlen
  have hcopy1 : buf.out.length + ((s.drop consumed).take (matchPos - consumed)).length ≤
      buf.bufferSpace := by
    simp only [List.length_take, List.length_drop]
    omega
  have hcopy2 : (buf.out ++ (s.drop consumed).take (matchPos - consumed)).length + r.length ≤
      buf.bufferSpace := by
    simp only [List.length_append, List.length_take, List.length_drop]
    omega
  rw [replaceLoop, StringSearch.ofPattern_pattern, if_neg (by omega),
    ReplaceBuffer.copy_of_le hcopy1, Option.bind_some,
    ReplaceBuffer.copy_of_le (b := ⟨_, buf.bufferSpace⟩) hcopy2, Option.bind_some]
  dsimp only
  rw [search_drop p s hp (by omega)]
  cases hnext : firstMatchFrom p s (matchPos + p.length) with
  | none => rfl
  | some j =>
    have hj := (firstMatchFrom_eq_some_iff.1 hnext).1
    simp only [Option.map_some, Option.getD_some]
    rw [if_neg (by omega), Int.toNat_natCast, Nat.add_sub_cancel' hj]
    rfl

theorem replaceLoop_spec (hp : p ≠ []) (fuel : Nat) {buf : ReplaceBuffer} {consumed matchPos : Nat}
    (hinv : ReplaceLoopInv p r s buf consumed matchPos) (hfuel : s.length + 1 ≤ fuel + consumed) :
    ∃ res, replaceLoop (.ofPattern p) s r ((r.length : Int) - p.length) fuel buf consumed matchPos =
      some res ∧ ReplaceLoopPost p r s res := by
  have hpos := List.length_pos_of_ne_nil hp
  induction fuel generalizing buf consumed matchPos with
  | zero =>
    have := hinv.consumed_le
    omega
  | succ fuel ih =>
    have hle := hinv.consumed_le
    have hroom := hinv.step_room
    have hout := hinv.step_out hp
    have hbs : (buf.step s r consumed matchPos).bufferSpace = buf.bufferSpace := rfl
    have hold := hinv.room
    rw [replaceLoop_succ hp _ fuel hinv]
    cases hnext : firstMatchFrom p s (matchPos + p.length) with
    | none =>
      rw [replaceAll_drop_of_none p r s (by omega) hnext] at hout
      exact ⟨_, rfl, rfl, hout, by omega, hinv.bounded⟩
    | some j =>
      cases hres : (buf.step s r consumed matchPos).reserve (s.length - (matchPos + p.length))
          ((r.length : Int) - p.length) with
      | error e =>
        obtain ⟨rfl, hdelta, hmax⟩ := ReplaceBuffer.reserve_eq_error hres
        have hmore := length_replaceAll_drop_ge p r s hp (by omega) (by omega) hnext
        refine ⟨_, rfl, rfl, ?_⟩
        rw [← hout, List.length_append]
        omega
      | ok buf' =>
        have hb : ((buf.step s r consumed matchPos).bufferSpace : Int) ≤ maxLength := hinv.bounded
        obtain ⟨hbuf', hbounded, hspace, hgrow⟩ := ReplaceBuffer.reserve_eq_ok hb hres
        refine ih ⟨hnext, by rw [hbuf']; exact hout, ?_, hbounded⟩ (by omega)
        rw [hbuf']
        by_cases hdelta : 0 < (r.length : Int) - p.length
        · exact hspace hdelta
        · omega

end ReplaceLoop

/-! ### `Replace` is exact -/

/-- What `Replace` is for: NULL with an error exactly where the result would be longer than
`StringVal::MAX_LENGTH`, and otherwise every occurrence of the pattern replaced, read only
from what the function owns. -/
def ReplaceSpec (str pattern rep : Bytes) (out : Option String × Result) : Prop :=
  out.2.InBounds str [] ∧
    (out.1.isSome ↔ maxLength < (replaceAll pattern rep str).length) ∧
    out.2.value str [] =
      if maxLength < (replaceAll pattern rep str).length then none
      else some (replaceAll pattern rep str)

theorem replaceSpec_unchanged {str pattern rep : Bytes} (hR : replaceAll pattern rep str = str)
    (hs : (str.length : Int) ≤ maxLength) :
    ReplaceSpec str pattern rep (none, .view .str 0 str.length) := by
  refine ⟨by simp [Result.InBounds, Arg.bytes], ?_, ?_⟩
  · simp only [hR, Option.isSome_none, Bool.false_eq_true, false_iff, not_lt]
    exact hs
  · simp [Result.value, Arg.bytes, hR, not_lt.2 hs]

/-- `replace(str, pattern, replacement)` never copies past its allocation, returns `str` for an
empty pattern or one longer than `str`, and otherwise every occurrence of the pattern replaced,
or NULL with an error where that is longer than `StringVal::MAX_LENGTH`. -/
theorem replace_exact (str pattern rep : Bytes) (hs : (str.length : Int) ≤ maxLength) :
    ∃ out, replace str pattern rep = some out ∧ ReplaceSpec str pattern rep out ∧
      (pattern = [] ∨ str.length < pattern.length → out = (none, .view .str 0 str.length)) := by
  by_cases htriv : pattern.length = 0 ∨ str.length < pattern.length
  · have hR : replaceAll pattern rep str = str := by
      rcases htriv with h | h
      · rw [List.length_eq_zero_iff.1 h, replaceAll_nil_pattern]
      · exact replaceAll_of_none (firstMatchFrom_of_lt (by omega))
    exact ⟨_, by rw [replace, if_pos htriv], replaceSpec_unchanged hR hs, fun _ => rfl⟩
  have hp : pattern ≠ [] := fun h => htriv (Or.inl (by rw [h]; rfl))
  have hne : ¬ (pattern = [] ∨ str.length < pattern.length) := by
    rintro (h | h)
    · exact hp h
    · exact htriv (Or.inr h)
  rw [replace, if_neg htriv]
  dsimp only
  rw [StringSearch.search_eq, if_neg hp]
  cases hfirst : firstMatchFrom pattern str 0 with
  | none =>
    exact ⟨_, rfl, replaceSpec_unchanged (replaceAll_of_none hfirst) hs, fun h => absurd h hne⟩
  | some m =>
    have hm := (firstMatchFrom_eq_some_iff.1 hfirst).2.1
    have hfit := hm.le
    have hroom : (str.length : Int) + ((rep.length : Int) - pattern.length) ≤
        replaceBufferSpace str pattern ((rep.length : Int) - pattern.length) :=
      replaceBufferSpace_ge hm hp
    simp only [Option.map_some, Option.getD_some, Int.ofNat_eq_natCast]
    rw [if_neg (by omega)]
    by_cases hbig : maxLength < replaceBufferSpace str pattern ((rep.length : Int) - pattern.length)
    · rw [if_pos hbig]
      have hspace := replaceBufferSpace_of_lt hbig
      have hmore := length_replaceAll_drop_ge pattern rep str hp (by omega) (Nat.zero_le _) hfirst
      rw [List.drop_zero] at hmore
      have hlong : maxLength < (replaceAll pattern rep str).length := by omega
      exact ⟨_, rfl, ⟨trivial, by simp [hlong], by simp [Result.value, hlong]⟩,
        fun h => absurd h hne⟩
    rw [if_neg hbig]
    have hinv : ReplaceLoopInv pattern rep str
        ⟨[], (replaceBufferSpace str pattern ((rep.length : Int) - pattern.length)).toNat⟩ 0 m :=
      ⟨hfirst, by simp, by simp only [List.length_nil]; omega, by simp only; omega⟩
    obtain ⟨res, hres, hpost⟩ := replaceLoop_spec hp (str.length + 1) hinv (by omega)
    rw [Int.toNat_natCast, hres, Option.bind_some]
    rcases res with ⟨err, _ | ⟨buf, consumed⟩⟩
    · obtain ⟨rfl, hlong⟩ := hpost
      exact ⟨_, rfl, ⟨trivial, by simp [hlong], by simp [Result.value, hlong]⟩,
        fun h => absurd h hne⟩
    · obtain ⟨rfl, hout, hfits, hbounded⟩ := hpost
      have hcopy : buf.out.length + (str.drop consumed).length ≤ buf.bufferSpace := by
        rw [List.length_drop]
        exact hfits
      have hlen : ¬ maxLength < (replaceAll pattern rep str).length := by
        rw [← hout, List.length_append, List.length_drop]
        omega
      dsimp only
      rw [ReplaceBuffer.copy_of_le hcopy, Option.map_some]
      exact ⟨_, rfl, ⟨trivial, by simp [hlen], by simp [Result.value, hout, hlen]⟩,
        fun h => absurd h hne⟩

theorem replace_exact_expanding :
    replace [1, 2, 3, 1, 2, 3] [2] [7, 8] = some (none, .fresh [1, 7, 8, 3, 1, 7, 8, 3]) ∧
      ReplaceSpec [1, 2, 3, 1, 2, 3] [2] [7, 8] (none, .fresh [1, 7, 8, 3, 1, 7, 8, 3]) := by
  obtain ⟨out, hout, hspec, -⟩ :=
    replace_exact [1, 2, 3, 1, 2, 3] [2] [7, 8] (by unfold maxLength; decide)
  have hval : replace [1, 2, 3, 1, 2, 3] [2] [7, 8] = some (none, .fresh [1, 7, 8, 3, 1, 7, 8, 3]) := by
    decide
  rw [hval, Option.some.injEq] at hout
  exact ⟨hval, hout ▸ hspec⟩

end Impala.StringFunctions
