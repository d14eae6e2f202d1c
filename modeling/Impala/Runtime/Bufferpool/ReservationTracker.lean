import Impala.Lib.Forest
import Impala.Lib.MachineInt

/-!
The tree of buffer-pool reservations (runtime/bufferpool/reservation-tracker.h,
reservation-tracker.cc). Each `ReservationTracker` has a reservation, at most its
limit, of which it uses some itself and hands some to its children. An increase
asks the tracker's own limit, then the parent for what the unused reservation does
not cover, up to the root; a decrease is returned in full all the way up. A
transfer moves reservation between two trackers of one tree through their lowest
common ancestor.

The trackers are the `n` objects `Fin n`; a parent pointer is an index. The
counters are `int64_t`s, so every sum wraps to 64 bits. The recursion of
`IncreaseReservationInternalLocked` and `DecreaseReservation` through `parent_`
follows the path that `FindPathToRoot` lists. The linked `MemTracker`s and the debug
denial are answers the model is given; locks and profile counters are left out.
-/

set_option autoImplicit false

namespace Impala.ReservationTracker

open Forest MachineInt

def add64 (a b : Int) : Int := toSigned 64 (a + b)

def sub64 (a b : Int) : Int := toSigned 64 (a - b)

def int64Max : Int := 2 ^ 63 - 1

theorem add64_of_bounds {a b : Int} (h1 : -2 ^ 63 ≤ a + b) (h2 : a + b ≤ int64Max) :
    add64 a b = a + b :=
  toSigned_of_bounds h1 (by unfold int64Max at h2; omega)

theorem sub64_of_bounds {a b : Int} (h1 : -2 ^ 63 ≤ a - b) (h2 : a - b ≤ int64Max) :
    sub64 a b = a - b :=
  toSigned_of_bounds h1 (by unfold int64Max at h2; omega)

variable {n : Nat}

/-- The fields of one `ReservationTracker` that the accounting reads. -/
structure Tracker (n : Nat) where
  initialized : Bool
  parent : Option (Fin n)
  reservationLimit : Int
  reservation : Int
  usedReservation : Int
  childReservations : Int
  deriving DecidableEq, Repr

/-- The trackers, each named by its index. -/
abbrev Trackers (n : Nat) := Fin n → Tracker n

def Trackers.empty : Trackers n := fun _ => ⟨false, none, 0, 0, 0, 0⟩

def modify (s : Trackers n) (t : Fin n) (f : Tracker n → Tracker n) : Trackers n :=
  Function.update s t (f (s t))

namespace Tracker

def unusedReservation (tr : Tracker n) : Int :=
  sub64 (sub64 tr.reservation tr.usedReservation) tr.childReservations

def updateReservation (delta : Int) (tr : Tracker n) : Tracker n :=
  { tr with reservation := add64 tr.reservation delta }

def updateUsedReservation (delta : Int) (tr : Tracker n) : Tracker n :=
  { tr with usedReservation := add64 tr.usedReservation delta }

def addChildReservations (delta : Int) (tr : Tracker n) : Tracker n :=
  { tr with childReservations := add64 tr.childReservations delta }

end Tracker

def parentOf (s : Trackers n) (t : Fin n) : Option (Fin n) := (s t).parent

/-- `FindPathToRoot`: the tracker and its ancestors. The do-while loop follows
`parent_`; here it takes as many steps as there are trackers. -/
def findPathToRoot (s : Trackers n) (t : Fin n) : List (Fin n) :=
  walkUp (parentOf s) n t

/-- The answers of one call: `deny t` is the random denial at `t` of
`SetDebugDenyIncreaseReservation`, and `consume t` what `TryConsumeFromMemTracker`
returns at `t`. -/
structure Answers (n : Nat) where
  deny : Fin n → Bool
  consume : Fin n → Bool

/-- `DecreaseReservationLocked` at the first tracker of `path`, going on through
`parent_->DecreaseReservation(bytes, true)`. -/
def decreaseReservationLocked : List (Fin n) → Trackers n → Int → Bool → Trackers n
  | [], s, _, _ => s
  | t :: up, s, bytes, isChildReservation =>
    if bytes = 0 then s
    else
      let s := if isChildReservation then modify s t (·.addChildReservations (-bytes)) else s
      let s := modify s t (·.updateReservation (-bytes))
      decreaseReservationLocked up s bytes true

/-- `IncreaseReservationInternalLocked` at the first tracker of `path`: the state
after the call and whether the increase was granted. -/
def increaseReservationInternalLocked (ans : Answers n) :
    List (Fin n) → Trackers n → Int → Bool → Bool → Trackers n × Bool
  | [], s, _, _, _ => (s, false)
  | t :: up, s, bytes, useExistingReservation, isChildReservation =>
    let reservationIncrease :=
      if useExistingReservation then max 0 (sub64 bytes (s t).unusedReservation) else bytes
    let decision : Trackers n × Bool :=
      if reservationIncrease = 0 then (s, true)
      else if ans.deny t then (s, false)
      else if add64 (s t).reservation reservationIncrease > (s t).reservationLimit then (s, false)
      else match up with
        | [] => (s, true)
        | _ :: _ =>
          let parentCall := increaseReservationInternalLocked ans up s reservationIncrease true true
          if parentCall.2 && !ans.consume t then
            (decreaseReservationLocked up parentCall.1 reservationIncrease true, false)
          else parentCall
    if decision.2 then
      let s := modify decision.1 t (·.updateReservation reservationIncrease)
      (if isChildReservation then modify s t (·.addChildReservations bytes) else s, true)
    else (decision.1, false)

def initRootTracker (t : Fin n) (reservationLimit : Int) (s : Trackers n) : Trackers n :=
  Function.update s t ⟨true, none, reservationLimit, 0, 0, 0⟩

def initChildTracker (t parent : Fin n) (reservationLimit : Int) (s : Trackers n) :
    Trackers n :=
  Function.update s t ⟨true, some parent, reservationLimit, 0, 0, 0⟩

def close (t : Fin n) (s : Trackers n) : Trackers n :=
  if !(s t).initialized then s
  else
    let s' := if (s t).parent.isSome then
        decreaseReservationLocked (findPathToRoot s t) s (s t).reservation false
      else s
    modify s' t fun tr => { tr with parent := none, initialized := false }

def increaseReservation (ans : Answers n) (t : Fin n) (bytes : Int) (s : Trackers n) :
    Trackers n × Bool :=
  increaseReservationInternalLocked ans (findPathToRoot s t) s bytes false false

def increaseReservationToFit (ans : Answers n) (t : Fin n) (bytes : Int) (s : Trackers n) :
    Trackers n × Bool :=
  increaseReservationInternalLocked ans (findPathToRoot s t) s bytes true false

def allocateFrom (t : Fin n) (bytes : Int) (s : Trackers n) : Trackers n :=
  modify s t (·.updateUsedReservation bytes)

def increaseReservationToFitAndAllocate (ans : Answers n) (t : Fin n) (bytes : Int)
    (s : Trackers n) : Trackers n × Bool :=
  let r := increaseReservationInternalLocked ans (findPathToRoot s t) s bytes true false
  if !r.2 then (r.1, false) else (allocateFrom t bytes r.1, true)

def decreaseReservation (t : Fin n) (bytes : Int) (s : Trackers n) : Trackers n :=
  decreaseReservationLocked (findPathToRoot s t) s bytes false

def releaseTo (t : Fin n) (bytes : Int) (s : Trackers n) : Trackers n :=
  modify s t (·.updateUsedReservation (-bytes))

/-- The loop of `TransferReservationTo` that pops the common ancestors off the backs
of both paths, here given reversed: what is left of each, and the last ancestor
popped. -/
def popCommonAncestors : List (Fin n) → List (Fin n) → Fin n →
    List (Fin n) × List (Fin n) × Fin n
  | a :: as, b :: bs, c => if a = b then popCommonAncestors as bs a else (a :: as, b :: bs, c)
  | as, bs, c => (as, bs, c)

/-- The loop over `other_path_to_common`: each tracker grows, and all but `other`
count the growth as their child's. -/
def growPath (path : List (Fin n)) (bytes : Int) (s : Trackers n) : Trackers n :=
  path.foldl (fun s u =>
    let s := modify s u (·.updateReservation bytes)
    if some u ≠ path.head? then modify s u (·.addChildReservations bytes) else s) s

/-- The loop over `path_to_common`: each tracker shrinks, and all but `this` count
the loss as their child's. -/
def shrinkPath (path : List (Fin n)) (bytes : Int) (s : Trackers n) : Trackers n :=
  path.foldl (fun s u =>
    let s := if some u ≠ path.head? then modify s u (·.addChildReservations (-bytes)) else s
    modify s u (·.updateReservation (-bytes))) s

def transferReservationTo (t other : Fin n) (bytes : Int) (s : Trackers n) :
    Trackers n × Bool :=
  if other = t then (s, true)
  else
    let path := findPathToRoot s t
    let popped := popCommonAncestors path.reverse (findPathToRoot s other).reverse
      (path.getLastD t)
    let pathToCommon := popped.1.reverse
    let otherPathToCommon := popped.2.1.reverse
    let commonAncestor := popped.2.2
    if otherPathToCommon.any fun u => add64 (s u).reservation bytes > (s u).reservationLimit then
      (s, false)
    else
      let s := shrinkPath pathToCommon bytes (growPath otherPathToCommon bytes s)
      let s := if commonAncestor = other then modify s other (·.addChildReservations (-bytes))
        else s
      let s := if commonAncestor = t then modify s t (·.addChildReservations bytes) else s
      (s, true)

/-- The calls on a tree of trackers. -/
inductive Op (n : Nat)
  | initRootTracker (t : Fin n) (reservationLimit : Int)
  | initChildTracker (t parent : Fin n) (reservationLimit : Int)
  | close (t : Fin n)
  | increaseReservation (t : Fin n) (bytes : Int) (ans : Answers n)
  | increaseReservationToFit (t : Fin n) (bytes : Int) (ans : Answers n)
  | increaseReservationToFitAndAllocate (t : Fin n) (bytes : Int) (ans : Answers n)
  | decreaseReservation (t : Fin n) (bytes : Int)
  | transferReservationTo (t other : Fin n) (bytes : Int)
  | allocateFrom (t : Fin n) (bytes : Int)
  | releaseTo (t : Fin n) (bytes : Int)

/-- One call: the trackers after it, and what it returns (`true` for the calls that
return nothing). -/
def Op.apply : Op n → Trackers n → Trackers n × Bool
  | .initRootTracker t limit, s => (ReservationTracker.initRootTracker t limit s, true)
  | .initChildTracker t p limit, s => (ReservationTracker.initChildTracker t p limit s, true)
  | .close t, s => (ReservationTracker.close t s, true)
  | .increaseReservation t bytes ans, s => ReservationTracker.increaseReservation ans t bytes s
  | .increaseReservationToFit t bytes ans, s => ReservationTracker.increaseReservationToFit ans t bytes s
  | .increaseReservationToFitAndAllocate t bytes ans, s =>
    ReservationTracker.increaseReservationToFitAndAllocate ans t bytes s
  | .decreaseReservation t bytes, s => (ReservationTracker.decreaseReservation t bytes s, true)
  | .transferReservationTo t other bytes, s => ReservationTracker.transferReservationTo t other bytes s
  | .allocateFrom t bytes, s => (ReservationTracker.allocateFrom t bytes s, true)
  | .releaseTo t bytes, s => (ReservationTracker.releaseTo t bytes s, true)

def step (s : Trackers n) (op : Op n) : Trackers n := (op.apply s).1

/-! ## The pointer structure and the popped paths -/

@[simp]
theorem modify_self (s : Trackers n) (t : Fin n) (f : Tracker n → Tracker n) :
    modify s t f t = f (s t) := by
  simp [modify]

@[simp]
theorem modify_of_ne (s : Trackers n) {t u : Fin n} (f : Tracker n → Tracker n) (h : u ≠ t) :
    modify s t f u = s u := by
  simp [modify, h]

theorem modify_modify (s : Trackers n) (t : Fin n) (f g : Tracker n → Tracker n) :
    modify (modify s t f) t g = modify s t (g ∘ f) := by
  simp [modify]

theorem popCommonAncestors_spec [DecidableEq (Fin n)] :
    ∀ (xs ys : List (Fin n)) (c : Fin n), ∃ P,
      xs = P ++ (popCommonAncestors xs ys c).1 ∧ ys = P ++ (popCommonAncestors xs ys c).2.1 ∧
      (popCommonAncestors xs ys c).2.2 = P.getLastD c ∧
      ((popCommonAncestors xs ys c).1.head? ≠ (popCommonAncestors xs ys c).2.1.head? ∨
        (popCommonAncestors xs ys c).1 = [] ∨ (popCommonAncestors xs ys c).2.1 = [])
  | a :: as, b :: bs, c => by
    by_cases hab : a = b
    · subst hab
      obtain ⟨P, hx, hy, hc, hd⟩ := popCommonAncestors_spec as bs a
      refine ⟨a :: P, ?_, ?_, ?_, ?_⟩ <;> simp only [popCommonAncestors, if_true]
      · rw [List.cons_append, ← hx]
      · rw [List.cons_append, ← hy]
      · rw [hc, List.getLastD_cons]
      · exact hd
    · refine ⟨[], ?_, ?_, ?_, ?_⟩ <;> simp [popCommonAncestors, hab]
  | [], ys, c => ⟨[], by simp [popCommonAncestors]⟩
  | _ :: _, [], c => ⟨[], by simp [popCommonAncestors]⟩

theorem growPath_cons {o : Fin n} {rest : List (Fin n)} (ho : o ∉ rest) (bytes : Int)
    (s : Trackers n) :
    growPath (o :: rest) bytes s = rest.foldl (fun s u =>
      modify (modify s u (·.updateReservation bytes)) u (·.addChildReservations bytes))
      (modify s o (·.updateReservation bytes)) := by
  unfold growPath
  rw [List.foldl_cons]
  simp only [List.head?_cons, ne_eq, not_true_eq_false, if_false]
  refine List.foldl_ext _ _ _ fun s u hu => ?_
  have hne : ¬some u = some o := fun h => ho (Option.some.inj h ▸ hu)
  simp only [hne, not_false_eq_true, if_true]

theorem shrinkPath_cons {t : Fin n} {rest : List (Fin n)} (ht : t ∉ rest) (bytes : Int)
    (s : Trackers n) :
    shrinkPath (t :: rest) bytes s = rest.foldl (fun s u =>
      modify (modify s u (·.addChildReservations (-bytes))) u (·.updateReservation (-bytes)))
      (modify s t (·.updateReservation (-bytes))) := by
  unfold shrinkPath
  rw [List.foldl_cons]
  simp only [List.head?_cons, ne_eq, not_true_eq_false, if_false]
  refine List.foldl_ext _ _ _ fun s u hu => ?_
  have hne : ¬some u = some t := fun h => ht (Option.some.inj h ▸ hu)
  simp only [hne, not_false_eq_true, if_true]

theorem popCommonAncestors_paths {parent : Fin n → Option (Fin n)} {t other : Fin n}
    {L₁ L₂ : List (Fin n)} (h₁ : RootPath parent t L₁) (h₂ : RootPath parent other L₂)
    (hroot : L₁.getLast? = L₂.getLast?) (hne : other ≠ t) :
    ∃ Q, L₁ = (popCommonAncestors L₁.reverse L₂.reverse (L₁.getLastD t)).1.reverse ++
        (popCommonAncestors L₁.reverse L₂.reverse (L₁.getLastD t)).2.2 :: Q ∧
      L₂ = (popCommonAncestors L₁.reverse L₂.reverse (L₁.getLastD t)).2.1.reverse ++
        (popCommonAncestors L₁.reverse L₂.reverse (L₁.getLastD t)).2.2 :: Q ∧
      (popCommonAncestors L₁.reverse L₂.reverse (L₁.getLastD t)).1.reverse.getLast? ≠
        (popCommonAncestors L₁.reverse L₂.reverse (L₁.getLastD t)).2.1.reverse.getLast? := by
  obtain ⟨P, hx, hy, hc, hd⟩ := popCommonAncestors_spec L₁.reverse L₂.reverse (L₁.getLastD t)
  generalize popCommonAncestors L₁.reverse L₂.reverse (L₁.getLastD t) = popped at hx hy hc hd ⊢
  obtain ⟨R₁, R₂, c⟩ := popped
  simp only at hx hy hc hd ⊢
  obtain ⟨L₁', rfl⟩ := h₁.exists_tail
  obtain ⟨L₂', rfl⟩ := h₂.exists_tail
  obtain ⟨P', c', rfl⟩ : ∃ P' c', P = P' ++ [c'] := by
    rcases List.eq_nil_or_concat P with rfl | ⟨P', c', rfl⟩
    · rw [List.nil_append] at hx hy
      subst hx hy
      simp only [List.head?_reverse] at hd
      rcases hd with hd | hd | hd
      · exact absurd hroot hd
      · simp at hd
      · simp at hd
    · exact ⟨P', c', by simp⟩
  rw [List.getLastD_concat] at hc
  subst hc
  have hx' := congrArg List.reverse hx
  have hy' := congrArg List.reverse hy
  rw [List.reverse_reverse, List.reverse_append, List.reverse_concat] at hx' hy'
  refine ⟨P'.reverse, hx', hy', ?_⟩
  rw [List.getLast?_reverse, List.getLast?_reverse]
  rcases hd with hd | hd | hd
  · exact hd
  · subst hd
    cases R₂ with
    | nil =>
      simp at hx' hy'
      exact absurd (hy'.1.trans hx'.1.symm) hne
    | cons r R₂ => simp
  · subst hd
    cases R₁ with
    | nil =>
      simp at hx' hy'
      exact absurd (hy'.1.trans hx'.1.symm) hne
    | cons r R₁ => simp

theorem increaseReservationInternalLocked_refused (ans : Answers n)
    (hc : ∀ u, ans.consume u = true) :
    ∀ (path : List (Fin n)) (s : Trackers n) (bytes : Int) (useExisting isChild : Bool),
      (increaseReservationInternalLocked ans path s bytes useExisting isChild).2 = false →
      (increaseReservationInternalLocked ans path s bytes useExisting isChild).1 = s
  | [], _, _, _, _, _ => rfl
  | t :: up, s, bytes, useExisting, isChild, h => by
    unfold increaseReservationInternalLocked at h ⊢
    dsimp only at h ⊢
    set inc := if useExisting then max 0 (sub64 bytes (s t).unusedReservation) else bytes
    by_cases hz : inc = 0
    · simp [hz] at h
    simp only [hz, if_false] at h ⊢
    by_cases hd : ans.deny t = true
    · simp [hd]
    simp only [hd, Bool.false_eq_true, if_false] at h ⊢
    by_cases hl : add64 (s t).reservation inc > (s t).reservationLimit
    · simp [hl]
    simp only [hl, if_false] at h ⊢
    cases up with
    | nil => simp at h
    | cons p up =>
      have ih := increaseReservationInternalLocked_refused ans hc (p :: up) s inc true true
      generalize increaseReservationInternalLocked ans (p :: up) s inc true true = pc at ih h ⊢
      simp only [hc t, Bool.not_true, Bool.and_false, Bool.false_eq_true, if_false] at h ⊢
      by_cases hg : pc.2 = true
      · simp [hg] at h
      · simp only [hg]
        exact ih (by simpa using hg)

end Impala.ReservationTracker
