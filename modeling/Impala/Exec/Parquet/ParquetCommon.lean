import Impala.Lib.MachineInt

/-!
Page filtering with the page index (exec/parquet/parquet-common.cc): `ComputeCandidateRanges`
turns the row ranges to skip into the ranges of rows still to read, and `ComputeCandidatePages`
picks the pages whose rows meet one of them.

The rows are `int64_t`, but `ComputeCandidateRanges` keeps the end of the skipped rows so far in
an `int`: a skipped range ending at row `2^31` or later is cut to 32 bits, and the rows it
skipped come back as a candidate range that starts below zero
(`computeCandidateRanges_truncates_skip_end`).
-/

set_option autoImplicit false

namespace Impala

open MachineInt

/-- `RowRange`: the rows `first` to `last`, both included. -/
structure RowRange where
  first : Int
  last : Int
  deriving DecidableEq, Repr

namespace RowRange

def le (a b : RowRange) : Bool := a.first < b.first || (a.first == b.first && a.last ≤ b.last)

def Covers (ranges : List RowRange) (row : Int) : Prop :=
  ∃ r ∈ ranges, r.first ≤ row ∧ row ≤ r.last

end RowRange

def validateRowRangesData (skipRanges : List RowRange) (numRows : Int) : Bool :=
  skipRanges.all fun r => !(r.first > r.last || r.first < 0 || r.last ≥ numRows)

/-- The loop of `ComputeCandidateRanges` over the sorted skip ranges from `skip_end`: the gaps
it pushes and `skip_end` after. `skip_end` is an `int`. -/
def candidateGaps (skipEnd : Int) : List RowRange → List RowRange × Int
  | [] => ([], skipEnd)
  | r :: rs =>
    if skipEnd + 1 ≥ r.first then
      candidateGaps (if skipEnd < r.last then toSigned 32 r.last else skipEnd) rs
    else
      let (gaps, e) := candidateGaps (toSigned 32 r.last) rs
      (⟨skipEnd + 1, r.first - 1⟩ :: gaps, e)

/-- `ComputeCandidateRanges(num_rows, &skip_ranges, &candidate_ranges)`: the candidate ranges,
or none where it returns false. -/
def computeCandidateRanges (numRows : Int) (skipRanges : List RowRange) : Option (List RowRange) :=
  if !validateRowRangesData skipRanges numRows then none
  else
    let (gaps, skipEnd) := candidateGaps (-1) (skipRanges.mergeSort RowRange.le)
    some (if skipEnd < numRows - 1 then gaps ++ [⟨skipEnd + 1, numRows - 1⟩] else gaps)

/-- A skipped range ending at row `2^31` or later, up to `2^32`: `skip_end` keeps its end cut to
32 bits, below zero, and the rows it skipped come back in a candidate range that starts below
row zero. -/
theorem computeCandidateRanges_truncates_skip_end {numRows last : Int} (hlast : 2 ^ 31 ≤ last)
    (hlast32 : last < 2 ^ 32) (hrows : last < numRows) :
    computeCandidateRanges numRows [⟨0, last⟩] = some [⟨last + 1 - 2 ^ 32, numRows - 1⟩] ∧
      RowRange.Covers [⟨0, last⟩] 0 ∧ RowRange.Covers [⟨last + 1 - 2 ^ 32, numRows - 1⟩] 0 := by
  have hvalid : validateRowRangesData [⟨0, last⟩] numRows = true := by
    simp only [validateRowRangesData, List.all_cons, List.all_nil, Bool.and_true, Bool.not_eq_true',
      Bool.or_eq_false_iff, decide_eq_false_iff_not]
    omega
  have hcut : toSigned 32 last = last - 2 ^ 32 := toSigned_of_wrap (w := 31) hlast (by omega)
  have hgaps : candidateGaps (-1) [⟨0, last⟩] = ([], last - 2 ^ 32) := by
    rw [candidateGaps, if_pos (by simp), if_pos (by simp; omega), hcut, candidateGaps]
  refine ⟨?_, ⟨_, List.mem_singleton_self _, le_refl 0, by simp; omega⟩,
    ⟨_, List.mem_singleton_self _, by simp; omega, by simp; omega⟩⟩
  rw [computeCandidateRanges, hvalid, Bool.not_true, if_neg Bool.false_ne_true,
    List.mergeSort_singleton, hgaps]
  simp only [if_pos (show last - 2 ^ 32 < numRows - 1 by omega), List.nil_append]
  congr 3
  omega

theorem computeCandidateRanges_truncates_skip_end_two_pow_31 :
    computeCandidateRanges (2 ^ 31 + 1) [⟨0, 2 ^ 31⟩] =
        some [⟨2 ^ 31 + 1 - 2 ^ 32, 2 ^ 31 + 1 - 1⟩] ∧
      RowRange.Covers [⟨0, 2 ^ 31⟩] 0 ∧ RowRange.Covers [⟨2 ^ 31 + 1 - 2 ^ 32, 2 ^ 31 + 1 - 1⟩] 0 :=
  computeCandidateRanges_truncates_skip_end (by norm_num) (by norm_num) (by norm_num)

/-- A `parquet::PageLocation`. -/
structure PageLocation where
  offset : Int
  compressedPageSize : Int
  firstRowIndex : Int
  deriving DecidableEq, Repr

def isValidPageLocation (p : PageLocation) (numRows : Int) : Bool :=
  p.offset ≥ 0 && p.firstRowIndex ≥ 0 && p.firstRowIndex < numRows

def validatePageLocationsFrom (numRows : Int) : Option PageLocation → List PageLocation → Bool
  | _, [] => true
  | lastValid, p :: ps =>
    if !isValidPageLocation p numRows then
      if p.compressedPageSize = 0 then validatePageLocationsFrom numRows lastValid ps else false
    else
      match lastValid with
      | some l => if p.firstRowIndex ≤ l.firstRowIndex then false
                  else validatePageLocationsFrom numRows (some p) ps
      | none => validatePageLocationsFrom numRows (some p) ps

def validatePageLocations (pages : List PageLocation) (numRows : Int) : Bool :=
  validatePageLocationsFrom numRows none pages

def rangesIntersect (lhs rhs : RowRange) : Bool := max lhs.first rhs.first ≤ min lhs.last rhs.last

/-- The first page from `i` on that is not empty, or the number of pages. -/
def nextNonEmpty (pages : List PageLocation) (i : Nat) : Nat :=
  if h : i < pages.length then
    if pages[i].compressedPageSize = 0 then nextNonEmpty pages (i + 1) else i
  else i
termination_by pages.length - i

theorem le_nextNonEmpty (pages : List PageLocation) (i : Nat) : i ≤ nextNonEmpty pages i := by
  rw [nextNonEmpty]
  split
  · split
    · exact Nat.le_of_succ_le (le_nextNonEmpty pages (i + 1))
    · exact le_rfl
  · exact le_rfl
termination_by pages.length - i

/-- The first candidate range from `rangeIdx` on that does not end before `pageStart`. -/
def skipRangesBefore (ranges : List RowRange) (pageStart : Int) (rangeIdx : Nat) : Nat :=
  if h : rangeIdx < ranges.length then
    if ranges[rangeIdx].last < pageStart then skipRangesBefore ranges pageStart (rangeIdx + 1)
    else rangeIdx
  else rangeIdx
termination_by ranges.length - rangeIdx

/-- The loop of `ComputeCandidatePages` from page `pageIdx` and candidate range `rangeIdx`: the
pages it pushes. -/
def candidatePagesFrom (pages : List PageLocation) (ranges : List RowRange) (numRows : Int)
    (rangeIdx pageIdx : Nat) : List Nat :=
  if h : pageIdx < pages.length then
    if pages[pageIdx].compressedPageSize = 0 then
      candidatePagesFrom pages ranges numRows rangeIdx (pageIdx + 1)
    else
      let nextPageIdx := nextNonEmpty pages (pageIdx + 1)
      let pageStart := pages[pageIdx].firstRowIndex
      let pageEnd := if h' : nextPageIdx < pages.length then pages[nextPageIdx].firstRowIndex - 1
        else numRows - 1
      let rangeIdx := skipRangesBefore ranges pageStart rangeIdx
      if h'' : rangeIdx < ranges.length then
        (if rangesIntersect ranges[rangeIdx] ⟨pageStart, pageEnd⟩ then [pageIdx] else []) ++
          candidatePagesFrom pages ranges numRows rangeIdx nextPageIdx
      else []
  else []
termination_by pages.length - pageIdx
decreasing_by
  · omega
  · have := le_nextNonEmpty pages (pageIdx + 1)
    omega

/-- `ComputeCandidatePages(page_locations, candidate_ranges, num_rows, &candidate_pages)`: the
pages, or none where it returns false. -/
def computeCandidatePages (pages : List PageLocation) (ranges : List RowRange) (numRows : Int) :
    Option (List Nat) :=
  if !validatePageLocations pages numRows then none
  else
    let candidatePages := candidatePagesFrom pages ranges numRows 0 0
    if ranges ≠ [] ∧ candidatePages = [] then none else some candidatePages

end Impala
