import Mathlib.Algebra.BigOperators.Group.List.Basic
import Mathlib.Data.List.Nodup
import Mathlib.Tactic.Abel
import Mathlib.Tactic.Ring
import Impala.Lib.AssocList

set_option autoImplicit false
set_option linter.unusedSectionVars false

/-!
The admitted-resource accounting of the admission controller
(scheduling/admission-controller.cc). An admission charges every backend's
host and the request pool; ReleaseQueryBackends gives back the charge of the
backends it finds; ReleaseQuery ends the query. Beside the charges the
controller keeps num_released_backends_, the number of backends a query has
still to release.

The controller's maps are association lists: running_queries_ is keyed by
the pair (coordinator, query) (the source nests one map in the other),
per_backend_resources and per_backend_schedule_states by host. host_stats_
and the pool stats are total functions, as the source default-constructs a
missing entry.
-/

namespace Impala.AdmissionController

open AssocList

@[ext] structure HostStats where
  memAdmitted : Int
  numAdmitted : Int
  slotsInUse : Int
  deriving DecidableEq, Repr

namespace HostStats

instance : Zero HostStats := ⟨⟨0, 0, 0⟩⟩

instance : Add HostStats :=
  ⟨fun a b => ⟨a.memAdmitted + b.memAdmitted, a.numAdmitted + b.numAdmitted,
    a.slotsInUse + b.slotsInUse⟩⟩

instance : Neg HostStats := ⟨fun a => ⟨-a.memAdmitted, -a.numAdmitted, -a.slotsInUse⟩⟩

@[simp] theorem zero_memAdmitted : (0 : HostStats).memAdmitted = 0 := rfl
@[simp] theorem zero_numAdmitted : (0 : HostStats).numAdmitted = 0 := rfl
@[simp] theorem zero_slotsInUse : (0 : HostStats).slotsInUse = 0 := rfl

@[simp] theorem add_memAdmitted (a b : HostStats) :
    (a + b).memAdmitted = a.memAdmitted + b.memAdmitted := rfl
@[simp] theorem add_numAdmitted (a b : HostStats) :
    (a + b).numAdmitted = a.numAdmitted + b.numAdmitted := rfl
@[simp] theorem add_slotsInUse (a b : HostStats) :
    (a + b).slotsInUse = a.slotsInUse + b.slotsInUse := rfl

@[simp] theorem neg_memAdmitted (a : HostStats) : (-a).memAdmitted = -a.memAdmitted := rfl
@[simp] theorem neg_numAdmitted (a : HostStats) : (-a).numAdmitted = -a.numAdmitted := rfl
@[simp] theorem neg_slotsInUse (a : HostStats) : (-a).slotsInUse = -a.slotsInUse := rfl

instance : AddCommGroup HostStats where
  add_assoc a b c := by ext <;> simp [Int.add_assoc]
  zero_add a := by ext <;> simp
  add_zero a := by ext <;> simp
  add_comm a b := by ext <;> simp [Int.add_comm]
  neg_add_cancel a := by ext <;> simp
  nsmul := nsmulRec
  zsmul := zsmulRec

end HostStats

/-- The pool's local admitted totals: local_mem_admitted_ and
local_stats_.num_admitted_running. -/
structure PoolStats where
  localMemAdmitted : Int
  numAdmittedRunning : Int
  deriving DecidableEq, Repr

namespace PoolStats

def admitQueryAndMemory (stats : PoolStats) (clusterMemAdmitted : Int) : PoolStats :=
  { localMemAdmitted := stats.localMemAdmitted + clusterMemAdmitted
    numAdmittedRunning := stats.numAdmittedRunning + 1 }

def releaseQuery (stats : PoolStats) : PoolStats :=
  { stats with numAdmittedRunning := stats.numAdmittedRunning - 1 }

def releaseMem (stats : PoolStats) (memToRelease : Int) : PoolStats :=
  { stats with localMemAdmitted := stats.localMemAdmitted - memToRelease }

end PoolStats

/-- What the admission of one backend charged, kept to release it later. -/
structure BackendAllocation where
  slotsToUse : Int
  memToAdmit : Int
  deriving DecidableEq, Repr

structure RunningQuery (Host Pool : Type) where
  requestPool : Pool
  perBackendResources : List (Host × BackendAllocation)
  deriving DecidableEq, Repr

/-- The part of a backend's schedule that admission reads. -/
structure BackendScheduleState where
  isCoordBackend : Bool
  slotsToUse : Int
  deriving DecidableEq, Repr

structure ScheduleState (Host Query Pool : Type) where
  queryId : Query
  requestPool : Pool
  perBackendMemToAdmit : Int
  coordBackendMemToAdmit : Int
  perBackendScheduleStates : List (Host × BackendScheduleState)
  deriving DecidableEq, Repr

namespace ScheduleState

variable {Host Query Pool : Type}

/-- ScheduleState::GetClusterMemoryToAdmit: the coordinator's memory plus the
per-backend memory of every other backend. -/
def getClusterMemoryToAdmit (state : ScheduleState Host Query Pool) : Int :=
  state.perBackendMemToAdmit * ((state.perBackendScheduleStates.length : Int) - 1) +
    state.coordBackendMemToAdmit

end ScheduleState

def getMemToAdmit {Host Query Pool : Type} (state : ScheduleState Host Query Pool)
    (backendScheduleState : BackendScheduleState) : Int :=
  if backendScheduleState.isCoordBackend then state.coordBackendMemToAdmit
  else state.perBackendMemToAdmit

structure State (Host Query Coord Pool : Type) where
  hostStats : Host → HostStats
  poolStats : Pool → PoolStats
  runningQueries : List ((Coord × Query) × RunningQuery Host Pool)
  numReleasedBackends : Query → Option Int

variable {Host Query Coord Pool : Type} [DecidableEq Host] [DecidableEq Query]
  [DecidableEq Coord] [DecidableEq Pool]

namespace State

def initial : State Host Query Coord Pool where
  hostStats _ := 0
  poolStats _ := ⟨0, 0⟩
  runningQueries := []
  numReleasedBackends _ := none

def updateHostStats (s : State Host Query Coord Pool) (hostAddr : Host)
    (memToAdmit numQueriesToAdmit numSlotsToAdmit : Int) : State Host Query Coord Pool :=
  { s with
    hostStats := Function.update s.hostStats hostAddr
      { memAdmitted := (s.hostStats hostAddr).memAdmitted + memToAdmit
        numAdmitted := (s.hostStats hostAddr).numAdmitted + numQueriesToAdmit
        slotsInUse := (s.hostStats hostAddr).slotsInUse + numSlotsToAdmit } }

def updatePoolStats (s : State Host Query Coord Pool) (pool : Pool) (f : PoolStats → PoolStats) :
    State Host Query Coord Pool :=
  { s with poolStats := Function.update s.poolStats pool (f (s.poolStats pool)) }

def updateStatsOnAdmission (s : State Host Query Coord Pool)
    (state : ScheduleState Host Query Pool) : State Host Query Coord Pool :=
  let s := state.perBackendScheduleStates.foldl
    (fun s entry => s.updateHostStats entry.1 (getMemToAdmit state entry.2) 1 entry.2.slotsToUse) s
  s.updatePoolStats state.requestPool (·.admitQueryAndMemory state.getClusterMemoryToAdmit)

def backendAllocations (state : ScheduleState Host Query Pool) : List (Host × BackendAllocation) :=
  state.perBackendScheduleStates.map fun entry =>
    (entry.1, { slotsToUse := entry.2.slotsToUse, memToAdmit := getMemToAdmit state entry.2 })

/-- An admission: UpdateStatsOnAdmission, then num_released_backends_ and the
RunningQuery entry. -/
def admitQuery (s : State Host Query Coord Pool) (coordId : Coord)
    (state : ScheduleState Host Query Pool) : State Host Query Coord Pool :=
  let s := s.updateStatsOnAdmission state
  { s with
    numReleasedBackends := Function.update s.numReleasedBackends state.queryId
      (some state.perBackendScheduleStates.length)
    runningQueries := ((coordId, state.queryId),
      { requestPool := state.requestPool, perBackendResources := backendAllocations state }) ::
        s.runningQueries }

/-- The loop of UpdateStatsOnReleaseForBackends: the state, the running query
with the found backends erased, and total_mem_to_release. A host with no
unreleased backend is skipped. -/
def releaseBackends : State Host Query Coord Pool → RunningQuery Host Pool → Int → List Host →
    State Host Query Coord Pool × RunningQuery Host Pool × Int
  | s, runningQuery, total, [] => (s, runningQuery, total)
  | s, runningQuery, total, hostAddr :: hostAddrs =>
    match find? hostAddr runningQuery.perBackendResources with
    | none => releaseBackends s runningQuery total hostAddrs
    | some allocation =>
      releaseBackends
        (s.updateHostStats hostAddr (-allocation.memToAdmit) (-1) (-allocation.slotsToUse))
        { runningQuery with
          perBackendResources := erase hostAddr runningQuery.perBackendResources }
        (total + allocation.memToAdmit) hostAddrs

def updateStatsOnReleaseForBackends (s : State Host Query Coord Pool)
    (runningQuery : RunningQuery Host Pool) (hostAddrs : List Host) :
    State Host Query Coord Pool × RunningQuery Host Pool :=
  let r := releaseBackends s runningQuery 0 hostAddrs
  (r.1.updatePoolStats r.2.1.requestPool (·.releaseMem r.2.2), r.2.1)

/-- ReleaseQueryBackendsLocked. The count of backends to release drops by the
length of the host list, whatever the loop found. -/
def releaseQueryBackendsLocked (s : State Host Query Coord Pool) (queryId : Query)
    (coordId : Coord) (hostAddrs : List Host) : State Host Query Coord Pool :=
  match find? (coordId, queryId) s.runningQueries with
  | none => s
  | some runningQuery =>
    let r := s.updateStatsOnReleaseForBackends runningQuery hostAddrs
    let s := { r.1 with runningQueries := replace (coordId, queryId) r.2 r.1.runningQueries }
    match s.numReleasedBackends queryId with
    | some n =>
      { s with
        numReleasedBackends := Function.update s.numReleasedBackends queryId
          (some (n - hostAddrs.length)) }
    | none => s

/-- ReleaseQuery: whether DCHECK_EQ(num_released_backends_.at(query_id), 0)
holds (a missing entry fails too, as at() throws), and the state after. -/
def releaseQuery (s : State Host Query Coord Pool) (queryId : Query) (coordId : Coord)
    (releaseRemainingBackends : Bool) : Bool × State Host Query Coord Pool :=
  match find? (coordId, queryId) s.runningQueries with
  | none => (true, s)
  | some runningQuery =>
    let toRelease := keys runningQuery.perBackendResources
    let s := if releaseRemainingBackends && 0 < toRelease.length then
      s.releaseQueryBackendsLocked queryId coordId toRelease else s
    (s.numReleasedBackends queryId == some 0,
      { s with
        numReleasedBackends := Function.update s.numReleasedBackends queryId none
        poolStats := Function.update s.poolStats runningQuery.requestPool
          (s.poolStats runningQuery.requestPool).releaseQuery
        runningQueries := erase (coordId, queryId) s.runningQueries })

end State

/-- The calls into the accounting, in any interleaving. -/
inductive Action (Host Query Coord Pool : Type) where
  | admitQuery (coordId : Coord) (state : ScheduleState Host Query Pool)
  | releaseQueryBackends (queryId : Query) (coordId : Coord) (hostAddrs : List Host)
  | releaseQuery (queryId : Query) (coordId : Coord) (releaseRemainingBackends : Bool)

def step (s : State Host Query Coord Pool) : Action Host Query Coord Pool → State Host Query Coord Pool
  | .admitQuery coordId state => s.admitQuery coordId state
  | .releaseQueryBackends queryId coordId hostAddrs =>
    s.releaseQueryBackendsLocked queryId coordId hostAddrs
  | .releaseQuery queryId coordId releaseRemainingBackends =>
    (s.releaseQuery queryId coordId releaseRemainingBackends).2

namespace State

section Frame

variable (s : State Host Query Coord Pool)

@[simp] theorem updateHostStats_hostStats (hostAddr : Host) (m n k : Int) :
    (s.updateHostStats hostAddr m n k).hostStats =
      Function.update s.hostStats hostAddr (s.hostStats hostAddr + ⟨m, n, k⟩) := rfl

@[simp] theorem updateHostStats_poolStats (hostAddr : Host) (m n k : Int) :
    (s.updateHostStats hostAddr m n k).poolStats = s.poolStats := rfl

@[simp] theorem updateHostStats_runningQueries (hostAddr : Host) (m n k : Int) :
    (s.updateHostStats hostAddr m n k).runningQueries = s.runningQueries := rfl

@[simp] theorem updateHostStats_numReleasedBackends (hostAddr : Host) (m n k : Int) :
    (s.updateHostStats hostAddr m n k).numReleasedBackends = s.numReleasedBackends := rfl

@[simp] theorem updatePoolStats_poolStats (pool : Pool) (f : PoolStats → PoolStats) :
    (s.updatePoolStats pool f).poolStats = Function.update s.poolStats pool (f (s.poolStats pool)) :=
  rfl

@[simp] theorem updatePoolStats_hostStats (pool : Pool) (f : PoolStats → PoolStats) :
    (s.updatePoolStats pool f).hostStats = s.hostStats := rfl

@[simp] theorem updatePoolStats_runningQueries (pool : Pool) (f : PoolStats → PoolStats) :
    (s.updatePoolStats pool f).runningQueries = s.runningQueries := rfl

@[simp] theorem updatePoolStats_numReleasedBackends (pool : Pool) (f : PoolStats → PoolStats) :
    (s.updatePoolStats pool f).numReleasedBackends = s.numReleasedBackends := rfl

end Frame

end State

/-- What one backend allocation holds on its host: its memory, one query and
its slots. -/
def BackendAllocation.charge (allocation : BackendAllocation) : HostStats :=
  ⟨allocation.memToAdmit, 1, allocation.slotsToUse⟩

namespace RunningQuery

def chargeOn (runningQuery : RunningQuery Host Pool) (h : Host) : HostStats :=
  (runningQuery.perBackendResources.map fun e => if e.1 = h then e.2.charge else 0).sum

def memToAdmit (runningQuery : RunningQuery Host Pool) : Int :=
  (runningQuery.perBackendResources.map (·.2.memToAdmit)).sum

end RunningQuery

section Ledger

def hostLedger (running : List ((Coord × Query) × RunningQuery Host Pool)) (h : Host) : HostStats :=
  (running.map fun e => e.2.chargeOn h).sum

def poolMemLedger (running : List ((Coord × Query) × RunningQuery Host Pool)) (p : Pool) : Int :=
  (running.map fun e => if e.2.requestPool = p then e.2.memToAdmit else 0).sum

def poolRunningCount (running : List ((Coord × Query) × RunningQuery Host Pool)) (p : Pool) :
    Int :=
  (running.map fun e => if e.2.requestPool = p then 1 else 0).sum

end Ledger

/-- The accounting invariant: every counter of the hosts and pools is the
total over the unreleased backends of the running queries, the query ids
among the running queries are distinct, and no query has two unreleased
backends on one host. -/
structure Accounted (s : State Host Query Coord Pool) : Prop where
  queries_nodup : ((keys s.runningQueries).map Prod.snd).Nodup
  backends_nodup : ∀ e ∈ s.runningQueries, (keys e.2.perBackendResources).Nodup
  host : ∀ h, s.hostStats h = hostLedger s.runningQueries h
  poolMem : ∀ p, (s.poolStats p).localMemAdmitted = poolMemLedger s.runningQueries p
  poolRunning : ∀ p, (s.poolStats p).numAdmittedRunning = poolRunningCount s.runningQueries p

/-- num_released_backends_[q] is the number of unreleased backends of each
running query q. -/
def ReleasedCounted (s : State Host Query Coord Pool) : Prop :=
  ∀ e ∈ s.runningQueries, s.numReleasedBackends e.1.2 = some (e.2.perBackendResources.length : Int)

theorem Accounted.keys_nodup {s : State Host Query Coord Pool} (hs : Accounted s) :
    (keys s.runningQueries).Nodup :=
  hs.queries_nodup.of_map _

theorem Accounted.query_ne {s : State Host Query Coord Pool} (hs : Accounted s)
    {e : (Coord × Query) × RunningQuery Host Pool} {k : Coord × Query} (he : e ∈ s.runningQueries)
    (hk : k ∈ keys s.runningQueries) (hne : e.1 ≠ k) : e.1.2 ≠ k.2 :=
  fun h => hne (List.inj_on_of_nodup_map hs.queries_nodup (List.mem_map_of_mem he) hk h)

section Release

theorem chargeOn_erase {rq : RunningQuery Host Pool} {h₀ : Host} {a : BackendAllocation}
    (hnd : (keys rq.perBackendResources).Nodup) (hf : find? h₀ rq.perBackendResources = some a)
    (h : Host) :
    rq.chargeOn h =
      RunningQuery.chargeOn { rq with perBackendResources := erase h₀ rq.perBackendResources } h +
        if h₀ = h then a.charge else 0 :=
  sum_erase hnd hf _

theorem memToAdmit_erase {rq : RunningQuery Host Pool} {h₀ : Host} {a : BackendAllocation}
    (hnd : (keys rq.perBackendResources).Nodup) (hf : find? h₀ rq.perBackendResources = some a) :
    rq.memToAdmit =
      RunningQuery.memToAdmit { rq with perBackendResources := erase h₀ rq.perBackendResources } +
        a.memToAdmit :=
  sum_erase hnd hf _

theorem hostStats_release (s : State Host Query Coord Pool) (h₀ : Host) (a : BackendAllocation)
    (h : Host) :
    (s.updateHostStats h₀ (-a.memToAdmit) (-1) (-a.slotsToUse)).hostStats h =
      s.hostStats h - if h₀ = h then a.charge else 0 := by
  rw [State.updateHostStats_hostStats]
  by_cases hh : h₀ = h
  · subst hh
    rw [Function.update_self, if_pos rfl, sub_eq_add_neg]
    rfl
  · rw [Function.update_of_ne (Ne.symm hh), if_neg hh, sub_zero]

theorem releaseBackends_frame (s : State Host Query Coord Pool) (rq : RunningQuery Host Pool)
    (total : Int) (hostAddrs : List Host) :
    (s.releaseBackends rq total hostAddrs).1.poolStats = s.poolStats ∧
      (s.releaseBackends rq total hostAddrs).1.runningQueries = s.runningQueries ∧
      (s.releaseBackends rq total hostAddrs).1.numReleasedBackends = s.numReleasedBackends ∧
      (s.releaseBackends rq total hostAddrs).2.1.requestPool = rq.requestPool := by
  induction hostAddrs generalizing s rq total with
  | nil => simp [State.releaseBackends]
  | cons h₀ hostAddrs ih =>
    cases hf : find? h₀ rq.perBackendResources with
    | none =>
      simp only [State.releaseBackends, hf]
      exact ih s rq total
    | some a =>
      simp only [State.releaseBackends, hf]
      obtain ⟨hpool, hrun, hnum, hreq⟩ := ih (s.updateHostStats h₀ (-a.memToAdmit) (-1) (-a.slotsToUse))
        { rq with perBackendResources := erase h₀ rq.perBackendResources } (total + a.memToAdmit)
      exact ⟨hpool, hrun, hnum, hreq⟩

/-- What the release loop did, relative to where it started: charge moved
from the query to the hosts, and the memory given back. -/
structure ReleaseEffect (s : State Host Query Coord Pool) (rq : RunningQuery Host Pool) (total : Int)
    (r : State Host Query Coord Pool × RunningQuery Host Pool × Int) : Prop where
  host : ∀ h, r.1.hostStats h + rq.chargeOn h = s.hostStats h + r.2.1.chargeOn h
  total : r.2.2 + r.2.1.memToAdmit = total + rq.memToAdmit
  sublist : r.2.1.perBackendResources.Sublist rq.perBackendResources

theorem releaseBackends_effect (s : State Host Query Coord Pool) (rq : RunningQuery Host Pool)
    (total : Int) (hostAddrs : List Host) (hnd : (keys rq.perBackendResources).Nodup) :
    ReleaseEffect s rq total (s.releaseBackends rq total hostAddrs) := by
  induction hostAddrs generalizing s rq total with
  | nil =>
    simp only [State.releaseBackends]
    exact ⟨fun _ => rfl, rfl, List.Sublist.refl _⟩
  | cons h₀ hostAddrs ih =>
    cases hf : find? h₀ rq.perBackendResources with
    | none =>
      simp only [State.releaseBackends, hf]
      exact ih s rq total hnd
    | some a =>
      simp only [State.releaseBackends, hf]
      obtain ⟨hhost, htotal, hsub⟩ := ih (s.updateHostStats h₀ (-a.memToAdmit) (-1) (-a.slotsToUse))
        { rq with perBackendResources := erase h₀ rq.perBackendResources } (total + a.memToAdmit)
        (Nodup.erase hnd h₀)
      refine ⟨fun h => ?_, ?_, hsub.trans (erase_sublist _ _)⟩
      · rw [chargeOn_erase hnd hf h, ← add_assoc, hhost h, hostStats_release]
        abel
      · have hmem := memToAdmit_erase hnd hf
        omega

theorem releaseBackends_length (s : State Host Query Coord Pool) (rq : RunningQuery Host Pool)
    (total : Int) {hostAddrs : List Host} (hnd : (keys rq.perBackendResources).Nodup)
    (hhosts : hostAddrs.Nodup) (hsub : ∀ h ∈ hostAddrs, h ∈ keys rq.perBackendResources) :
    (s.releaseBackends rq total hostAddrs).2.1.perBackendResources.length + hostAddrs.length =
      rq.perBackendResources.length := by
  induction hostAddrs generalizing s rq total with
  | nil => rfl
  | cons h₀ hostAddrs ih =>
    rw [List.nodup_cons] at hhosts
    have hmem := hsub h₀ List.mem_cons_self
    obtain ⟨a, hf⟩ := find?_of_mem_keys hmem
    simp only [State.releaseBackends, hf]
    have hsub' : ∀ h ∈ hostAddrs, h ∈ keys (erase h₀ rq.perBackendResources) := by
      intro h hh
      have hne : h ≠ h₀ := fun he => hhosts.1 (he ▸ hh)
      rw [keys_erase, List.mem_filter]
      exact ⟨hsub h (List.mem_cons_of_mem _ hh), by simpa using hne⟩
    have hrest := ih (s.updateHostStats h₀ (-a.memToAdmit) (-1) (-a.slotsToUse))
      { rq with perBackendResources := erase h₀ rq.perBackendResources } (total + a.memToAdmit)
      (Nodup.erase hnd h₀) hhosts.2 hsub'
    have hlen := length_erase hnd hmem
    simp only [List.length_cons] at hrest ⊢
    omega

theorem releaseBackends_duplicate (s : State Host Query Coord Pool) (rq : RunningQuery Host Pool)
    (total : Int) {h : Host} {a : BackendAllocation} (hf : find? h rq.perBackendResources = some a) :
    s.releaseBackends rq total [h, h] =
      (s.updateHostStats h (-a.memToAdmit) (-1) (-a.slotsToUse),
        { rq with perBackendResources := erase h rq.perBackendResources }, total + a.memToAdmit) := by
  simp [State.releaseBackends, hf]

end Release

section ReleaseQueryBackends

variable {s : State Host Query Coord Pool} {queryId : Query} {coordId : Coord}
  {rq : RunningQuery Host Pool}

theorem releaseQueryBackendsLocked_of_none (hostAddrs : List Host)
    (hf : find? (coordId, queryId) s.runningQueries = none) :
    s.releaseQueryBackendsLocked queryId coordId hostAddrs = s := by
  simp [State.releaseQueryBackendsLocked, hf]

theorem releaseQueryBackendsLocked_of_find (hostAddrs : List Host)
    (hf : find? (coordId, queryId) s.runningQueries = some rq) :
    (s.releaseQueryBackendsLocked queryId coordId hostAddrs).hostStats =
        (s.releaseBackends rq 0 hostAddrs).1.hostStats ∧
      (s.releaseQueryBackendsLocked queryId coordId hostAddrs).poolStats =
        Function.update s.poolStats rq.requestPool
          ((s.poolStats rq.requestPool).releaseMem (s.releaseBackends rq 0 hostAddrs).2.2) ∧
      (s.releaseQueryBackendsLocked queryId coordId hostAddrs).runningQueries =
        replace (coordId, queryId) (s.releaseBackends rq 0 hostAddrs).2.1 s.runningQueries ∧
      (s.releaseQueryBackendsLocked queryId coordId hostAddrs).numReleasedBackends =
        Function.update s.numReleasedBackends queryId
          ((s.numReleasedBackends queryId).map (· - hostAddrs.length)) := by
  obtain ⟨hpool, hrun, hnum, hreq⟩ := releaseBackends_frame s rq 0 hostAddrs
  cases hn : s.numReleasedBackends queryId with
  | none =>
    simp only [State.releaseQueryBackendsLocked, hf, State.updateStatsOnReleaseForBackends,
      State.updatePoolStats_numReleasedBackends, hnum, hn, Option.map_none]
    rw [← hn, Function.update_eq_self]
    simp [hpool, hrun, hreq]
  | some n =>
    simp only [State.releaseQueryBackendsLocked, hf, State.updateStatsOnReleaseForBackends,
      State.updatePoolStats_numReleasedBackends, hnum, hn, Option.map_some]
    simp [hpool, hrun, hreq]

theorem Accounted.releaseQueryBackendsLocked (hs : Accounted s) (queryId : Query) (coordId : Coord)
    (hostAddrs : List Host) : Accounted (s.releaseQueryBackendsLocked queryId coordId hostAddrs) := by
  cases hf : find? (coordId, queryId) s.runningQueries with
  | none => rwa [releaseQueryBackendsLocked_of_none hostAddrs hf]
  | some rq =>
    obtain ⟨hhost, hpool, hrun, -⟩ := releaseQueryBackendsLocked_of_find hostAddrs hf
    obtain ⟨-, -, -, hreq⟩ := releaseBackends_frame s rq 0 hostAddrs
    have hnd := hs.backends_nodup _ (mem_of_find? hf)
    have heff := releaseBackends_effect s rq 0 hostAddrs hnd
    set r := s.releaseBackends rq 0 hostAddrs
    refine ⟨?_, ?_, fun h => ?_, fun p => ?_, fun p => ?_⟩
    · rw [hrun, keys_replace]
      exact hs.queries_nodup
    · intro e he
      rw [hrun] at he
      rcases mem_replace he with rfl | ⟨he, -⟩
      · exact (heff.sublist.map Prod.fst).nodup hnd
      · exact hs.backends_nodup e he
    · have hsum := sum_replace hs.keys_nodup hf r.2.1 fun e => e.2.chargeOn h
      rw [hhost, hrun]
      apply add_right_cancel (b := rq.chargeOn h)
      rw [heff.host h, hs.host h]
      exact hsum.symm
    · have hsum := sum_replace hs.keys_nodup hf r.2.1
        fun e => if e.2.requestPool = p then e.2.memToAdmit else 0
      simp only [hreq] at hsum
      rw [hpool, hrun]
      by_cases hp : rq.requestPool = p
      · subst hp
        have htotal := heff.total
        simp only [↓reduceIte] at hsum
        rw [Function.update_self]
        simp only [PoolStats.releaseMem]
        rw [hs.poolMem]
        unfold poolMemLedger
        omega
      · simp only [if_neg hp, add_zero] at hsum
        rw [Function.update_of_ne (Ne.symm hp), hs.poolMem]
        exact hsum.symm
    · have hsum := sum_replace hs.keys_nodup hf r.2.1
        fun e => if e.2.requestPool = p then (1 : Int) else 0
      simp only [hreq, add_left_inj] at hsum
      rw [hpool, hrun]
      by_cases hp : rq.requestPool = p
      · subst hp
        rw [Function.update_self, PoolStats.releaseMem, hs.poolRunning]
        exact hsum.symm
      · rw [Function.update_of_ne (Ne.symm hp), hs.poolRunning]
        exact hsum.symm

theorem ReleasedCounted.releaseQueryBackendsLocked (hs : Accounted s) (hc : ReleasedCounted s)
    {hostAddrs : List Host} (hf : find? (coordId, queryId) s.runningQueries = some rq)
    (hhosts : hostAddrs.Nodup) (hsub : ∀ h ∈ hostAddrs, h ∈ keys rq.perBackendResources) :
    ReleasedCounted (s.releaseQueryBackendsLocked queryId coordId hostAddrs) := by
  obtain ⟨-, -, hrun, hnum⟩ := releaseQueryBackendsLocked_of_find hostAddrs hf
  have hnd := hs.backends_nodup _ (mem_of_find? hf)
  have hlen := releaseBackends_length s rq 0 hnd hhosts hsub
  have hk := mem_keys_of_find? hf
  intro e he
  rw [hrun] at he
  rw [hnum]
  rcases mem_replace he with rfl | ⟨he, hne⟩
  · rw [Function.update_self, hc _ (mem_of_find? hf), Option.map_some]
    dsimp only
    congr 1
    omega
  · rw [Function.update_of_ne (hs.query_ne he hk hne)]
    exact hc e he

end ReleaseQueryBackends

section ReleaseQuery

variable {s : State Host Query Coord Pool} {queryId : Query} {coordId : Coord}
  {rq : RunningQuery Host Pool}

theorem releaseQuery_of_none (releaseRemainingBackends : Bool)
    (hf : find? (coordId, queryId) s.runningQueries = none) :
    s.releaseQuery queryId coordId releaseRemainingBackends = (true, s) := by
  simp [State.releaseQuery, hf]

/-- The state ReleaseQuery leaves once the query holds no backend: its entry,
its count and one running query of its pool go. -/
def State.finishRelease (s : State Host Query Coord Pool) (queryId : Query) (coordId : Coord)
    (requestPool : Pool) : State Host Query Coord Pool :=
  { s with
    numReleasedBackends := Function.update s.numReleasedBackends queryId none
    poolStats := Function.update s.poolStats requestPool (s.poolStats requestPool).releaseQuery
    runningQueries := erase (coordId, queryId) s.runningQueries }

theorem Accounted.finishRelease (hs : Accounted s)
    (hf : find? (coordId, queryId) s.runningQueries = some rq)
    (hempty : rq.perBackendResources = []) :
    Accounted (s.finishRelease queryId coordId rq.requestPool) := by
  have hcharge : ∀ h, rq.chargeOn h = 0 := by simp [RunningQuery.chargeOn, hempty]
  have hmem : rq.memToAdmit = 0 := by simp [RunningQuery.memToAdmit, hempty]
  refine ⟨?_, ?_, fun h => ?_, fun p => ?_, fun p => ?_⟩
  · exact (((erase_sublist _ _).map Prod.fst).map Prod.snd).nodup hs.queries_nodup
  · intro e he
    exact hs.backends_nodup e (mem_erase.mp he).1
  · have hsum := sum_erase hs.keys_nodup hf fun e => e.2.chargeOn h
    rw [State.finishRelease, hs.host h]
    simpa [hostLedger, hcharge] using hsum
  · have hsum := sum_erase hs.keys_nodup hf
      fun e => if e.2.requestPool = p then e.2.memToAdmit else 0
    have hstats : (Function.update s.poolStats rq.requestPool
        (s.poolStats rq.requestPool).releaseQuery p).localMemAdmitted =
          (s.poolStats p).localMemAdmitted := by
      by_cases hp : rq.requestPool = p
      · subst hp
        simp [PoolStats.releaseQuery]
      · rw [Function.update_of_ne (Ne.symm hp)]
    rw [State.finishRelease]
    dsimp only
    rw [hstats, hs.poolMem p]
    simpa [poolMemLedger, hmem] using hsum
  · have hsum := sum_erase hs.keys_nodup hf
      fun e => if e.2.requestPool = p then (1 : Int) else 0
    rw [State.finishRelease]
    dsimp only
    by_cases hp : rq.requestPool = p
    · subst hp
      simp only [↓reduceIte] at hsum
      rw [Function.update_self]
      simp only [PoolStats.releaseQuery]
      rw [hs.poolRunning]
      unfold poolRunningCount
      omega
    · simp only [if_neg hp, add_zero] at hsum
      rw [Function.update_of_ne (Ne.symm hp), hs.poolRunning]
      exact hsum

theorem ReleasedCounted.finishRelease (hs : Accounted s) (hc : ReleasedCounted s)
    (hf : find? (coordId, queryId) s.runningQueries = some rq)
    (hempty : rq.perBackendResources = []) :
    s.numReleasedBackends queryId = some 0 ∧
      ReleasedCounted (s.finishRelease queryId coordId rq.requestPool) := by
  refine ⟨by simpa [hempty] using hc _ (mem_of_find? hf), fun e he => ?_⟩
  obtain ⟨he, hne⟩ := mem_erase.mp he
  rw [State.finishRelease]
  dsimp only
  rw [Function.update_of_ne (hs.query_ne he (mem_keys_of_find? hf) hne)]
  exact hc e he

theorem releaseQuery_spec (hs : Accounted s)
    (hf : find? (coordId, queryId) s.runningQueries = some rq)
    (releaseRemainingBackends : Bool)
    (hrem : releaseRemainingBackends = true ∨ rq.perBackendResources = []) :
    ∃ s₁ rq₁, Accounted s₁ ∧ (ReleasedCounted s → ReleasedCounted s₁) ∧
      find? (coordId, queryId) s₁.runningQueries = some rq₁ ∧ rq₁.perBackendResources = [] ∧
      s.releaseQuery queryId coordId releaseRemainingBackends =
        (s₁.numReleasedBackends queryId == some 0, s₁.finishRelease queryId coordId rq₁.requestPool) := by
  have hnd : (keys rq.perBackendResources).Nodup := hs.backends_nodup _ (mem_of_find? hf)
  simp only [State.releaseQuery, hf]
  split_ifs with hrel
  · obtain ⟨-, -, hrun, -⟩ := releaseQueryBackendsLocked_of_find (keys rq.perBackendResources) hf
    obtain ⟨-, -, -, hreq⟩ := releaseBackends_frame s rq 0 (keys rq.perBackendResources)
    have hlen := releaseBackends_length s rq 0 hnd hnd fun _ hh => hh
    rw [show (keys rq.perBackendResources).length = rq.perBackendResources.length from
      List.length_map _] at hlen
    refine ⟨_, (s.releaseBackends rq 0 (keys rq.perBackendResources)).2.1,
      hs.releaseQueryBackendsLocked queryId coordId (keys rq.perBackendResources),
      fun hc => hc.releaseQueryBackendsLocked hs hf hnd fun _ hh => hh, ?_, ?_, ?_⟩
    · rw [hrun]
      exact find?_replace_self _ (mem_keys_of_find? hf)
    · apply List.eq_nil_of_length_eq_zero
      omega
    · rw [hreq]
      rfl
  · have hempty : rq.perBackendResources = [] := by
      rcases hrem with rfl | h
      · apply List.eq_nil_of_length_eq_zero
        simpa [keys] using hrel
      · exact h
    exact ⟨s, rq, hs, id, hf, hempty, rfl⟩

theorem Accounted.releaseQuery (hs : Accounted s) (releaseRemainingBackends : Bool)
    (hrem : ∀ rq, find? (coordId, queryId) s.runningQueries = some rq →
      releaseRemainingBackends = true ∨ rq.perBackendResources = []) :
    Accounted (s.releaseQuery queryId coordId releaseRemainingBackends).2 := by
  cases hf : find? (coordId, queryId) s.runningQueries with
  | none =>
    rw [releaseQuery_of_none releaseRemainingBackends hf]
    exact hs
  | some rq =>
    obtain ⟨s₁, rq₁, hs₁, -, hf₁, hempty, heq⟩ :=
      releaseQuery_spec hs hf releaseRemainingBackends (hrem rq hf)
    rw [heq]
    exact hs₁.finishRelease hf₁ hempty

theorem ReleasedCounted.releaseQuery (hs : Accounted s) (hc : ReleasedCounted s)
    (releaseRemainingBackends : Bool)
    (hrem : ∀ rq, find? (coordId, queryId) s.runningQueries = some rq →
      releaseRemainingBackends = true ∨ rq.perBackendResources = []) :
    (s.releaseQuery queryId coordId releaseRemainingBackends).1 = true ∧
      ReleasedCounted (s.releaseQuery queryId coordId releaseRemainingBackends).2 := by
  cases hf : find? (coordId, queryId) s.runningQueries with
  | none =>
    rw [releaseQuery_of_none releaseRemainingBackends hf]
    exact ⟨rfl, hc⟩
  | some rq =>
    obtain ⟨s₁, rq₁, hs₁, hc₁, hf₁, hempty, heq⟩ :=
      releaseQuery_spec hs hf releaseRemainingBackends (hrem rq hf)
    obtain ⟨h0, hcount⟩ := (hc₁ hc).finishRelease hs₁ hf₁ hempty
    rw [heq]
    exact ⟨by simp [h0], hcount⟩

end ReleaseQuery

section Admission

variable {s : State Host Query Coord Pool} {state : ScheduleState Host Query Pool}

/-- What admission assumes of a schedule: a query id that no running query
has (the DCHECKs before the bookkeeping), backends on distinct hosts
(per_backend_schedule_states is a map), and exactly one coordinator backend. -/
structure Admissible (s : State Host Query Coord Pool) (state : ScheduleState Host Query Pool) :
    Prop where
  fresh : state.queryId ∉ (keys s.runningQueries).map Prod.snd
  hosts_nodup : (keys state.perBackendScheduleStates).Nodup
  one_coordinator : (state.perBackendScheduleStates.filter (·.2.isCoordBackend)).length = 1

def admittedQuery (state : ScheduleState Host Query Pool) : RunningQuery Host Pool :=
  { requestPool := state.requestPool, perBackendResources := State.backendAllocations state }

@[simp] theorem admittedQuery_requestPool : (admittedQuery state).requestPool = state.requestPool :=
  rfl

theorem foldl_updateHostStats (l : List (Host × BackendScheduleState)) (s : State Host Query Coord Pool) :
    l.foldl (fun s entry =>
        s.updateHostStats entry.1 (getMemToAdmit state entry.2) 1 entry.2.slotsToUse) s =
      { s with
        hostStats := fun h => s.hostStats h + (l.map fun e =>
          if e.1 = h then (⟨getMemToAdmit state e.2, 1, e.2.slotsToUse⟩ : HostStats) else 0).sum } := by
  induction l generalizing s with
  | nil => simp
  | cons e l ih =>
    rw [List.foldl_cons, ih]
    congr 1
    funext h
    by_cases he : e.1 = h
    · subst he
      simp [add_assoc]
    · simp [Function.update_of_ne (Ne.symm he), he]

theorem chargeOn_admittedQuery (h : Host) :
    (admittedQuery state).chargeOn h = (state.perBackendScheduleStates.map fun e =>
      if e.1 = h then (⟨getMemToAdmit state e.2, 1, e.2.slotsToUse⟩ : HostStats) else 0).sum := by
  simp [admittedQuery, RunningQuery.chargeOn, State.backendAllocations, BackendAllocation.charge,
    Function.comp_def]

theorem sum_getMemToAdmit (state : ScheduleState Host Query Pool)
    (l : List (Host × BackendScheduleState)) :
    (l.map fun e => getMemToAdmit state e.2).sum =
      state.coordBackendMemToAdmit * (l.filter (·.2.isCoordBackend)).length +
        state.perBackendMemToAdmit * (l.filter fun e => !e.2.isCoordBackend).length := by
  induction l with
  | nil => simp
  | cons e l ih =>
    rw [List.map_cons, List.sum_cons, ih]
    cases hc : e.2.isCoordBackend
    · simp only [getMemToAdmit, hc, List.filter_cons, Bool.false_eq_true, ↓reduceIte,
        Bool.not_false, List.length_cons]
      push_cast
      ring
    · simp only [getMemToAdmit, hc, List.filter_cons, ↓reduceIte, Bool.not_true,
        Bool.false_eq_true, List.length_cons]
      push_cast
      ring

theorem memToAdmit_admittedQuery (h1 : (state.perBackendScheduleStates.filter
    (·.2.isCoordBackend)).length = 1) :
    (admittedQuery state).memToAdmit = state.getClusterMemoryToAdmit := by
  have hlen := List.length_eq_length_filter_add (l := state.perBackendScheduleStates)
    (·.2.isCoordBackend)
  have hsum := sum_getMemToAdmit state state.perBackendScheduleStates
  simp only [admittedQuery, RunningQuery.memToAdmit, State.backendAllocations, List.map_map,
    Function.comp_def] at hsum ⊢
  rw [hsum, ScheduleState.getClusterMemoryToAdmit, hlen, h1]
  push_cast
  ring

theorem admitQuery_eq (coordId : Coord) :
    s.admitQuery coordId state =
      { hostStats := fun h => s.hostStats h + (admittedQuery state).chargeOn h
        poolStats := Function.update s.poolStats state.requestPool
          ((s.poolStats state.requestPool).admitQueryAndMemory state.getClusterMemoryToAdmit)
        runningQueries := ((coordId, state.queryId), admittedQuery state) :: s.runningQueries
        numReleasedBackends := Function.update s.numReleasedBackends state.queryId
          (some state.perBackendScheduleStates.length) } := by
  simp only [State.admitQuery, State.updateStatsOnAdmission, foldl_updateHostStats,
    chargeOn_admittedQuery, State.updatePoolStats]
  rfl

theorem Accounted.admitQuery (hs : Accounted s) (coordId : Coord) (hadm : Admissible s state) :
    Accounted (s.admitQuery coordId state) := by
  rw [admitQuery_eq]
  refine ⟨?_, ?_, fun h => ?_, fun p => ?_, fun p => ?_⟩
  · exact List.nodup_cons.mpr ⟨hadm.fresh, hs.queries_nodup⟩
  · intro e he
    rcases List.mem_cons.mp he with rfl | he
    · simpa [admittedQuery, State.backendAllocations, keys, Function.comp_def] using hadm.hosts_nodup
    · exact hs.backends_nodup e he
  · simp [hostLedger, hs.host h, add_comm]
  · by_cases hp : state.requestPool = p
    · subst hp
      simp [poolMemLedger, PoolStats.admitQueryAndMemory, hs.poolMem,
        memToAdmit_admittedQuery hadm.one_coordinator, add_comm]
    · simp [poolMemLedger, Function.update_of_ne (Ne.symm hp), hs.poolMem, hp]
  · by_cases hp : state.requestPool = p
    · subst hp
      simp [poolRunningCount, PoolStats.admitQueryAndMemory, hs.poolRunning, add_comm]
    · simp [poolRunningCount, Function.update_of_ne (Ne.symm hp), hs.poolRunning, hp]

theorem ReleasedCounted.admitQuery (hc : ReleasedCounted s) (coordId : Coord)
    (hadm : Admissible s state) : ReleasedCounted (s.admitQuery coordId state) := by
  rw [admitQuery_eq]
  intro e he
  rcases List.mem_cons.mp he with rfl | he
  · simp [admittedQuery, State.backendAllocations]
  · have hne : e.1.2 ≠ state.queryId := fun h =>
      hadm.fresh (h ▸ List.mem_map_of_mem (List.mem_map_of_mem he))
    dsimp only
    rw [Function.update_of_ne hne]
    exact hc e he

end Admission

section Runs

variable {s : State Host Query Coord Pool}

theorem Accounted.initial : Accounted (State.initial : State Host Query Coord Pool) :=
  ⟨List.nodup_nil, fun _ he => absurd he List.not_mem_nil, fun _ => rfl, fun _ => rfl,
    fun _ => rfl⟩

theorem ReleasedCounted.initial : ReleasedCounted (State.initial : State Host Query Coord Pool) :=
  fun _ he => absurd he List.not_mem_nil

/-- A call allowed at the state it is made in: an admission of an admissible
schedule, ReleaseQueryBackends with any host list, ReleaseQuery under the
contract of its header. -/
def Action.Allowed (s : State Host Query Coord Pool) : Action Host Query Coord Pool → Prop
  | .admitQuery _ state => Admissible s state
  | .releaseQueryBackends _ _ _ => True
  | .releaseQuery queryId coordId releaseRemainingBackends =>
    ∀ rq, find? (coordId, queryId) s.runningQueries = some rq →
      releaseRemainingBackends = true ∨ rq.perBackendResources = []

/-- An allowed call whose release list names distinct hosts that each still
hold a backend of the query. -/
def Action.Exact (s : State Host Query Coord Pool) : Action Host Query Coord Pool → Prop
  | .releaseQueryBackends queryId coordId hostAddrs =>
    hostAddrs.Nodup ∧ ∀ rq, find? (coordId, queryId) s.runningQueries = some rq →
      ∀ h ∈ hostAddrs, h ∈ keys rq.perBackendResources
  | a => a.Allowed s

theorem Action.Exact.allowed {a : Action Host Query Coord Pool} (ha : a.Exact s) : a.Allowed s := by
  cases a with
  | releaseQueryBackends => trivial
  | _ => exact ha

def RunSatisfies (P : State Host Query Coord Pool → Action Host Query Coord Pool → Prop) :
    State Host Query Coord Pool → List (Action Host Query Coord Pool) → Prop
  | _, [] => True
  | s, a :: as => P s a ∧ RunSatisfies P (step s a) as

theorem Accounted.step (hs : Accounted s) {a : Action Host Query Coord Pool} (ha : a.Allowed s) :
    Accounted (step s a) := by
  cases a with
  | admitQuery coordId state => exact hs.admitQuery coordId ha
  | releaseQueryBackends queryId coordId hostAddrs =>
    exact hs.releaseQueryBackendsLocked queryId coordId hostAddrs
  | releaseQuery queryId coordId releaseRemainingBackends =>
    exact hs.releaseQuery releaseRemainingBackends ha

theorem ReleasedCounted.step (hs : Accounted s) (hc : ReleasedCounted s)
    {a : Action Host Query Coord Pool} (ha : a.Exact s) : ReleasedCounted (step s a) := by
  cases a with
  | admitQuery coordId state => exact hc.admitQuery coordId ha
  | releaseQueryBackends queryId coordId hostAddrs =>
    cases hf : find? (coordId, queryId) s.runningQueries with
    | none =>
      rw [AdmissionController.step, releaseQueryBackendsLocked_of_none hostAddrs hf]
      exact hc
    | some rq => exact hc.releaseQueryBackendsLocked hs hf ha.1 (ha.2 rq hf)
  | releaseQuery queryId coordId releaseRemainingBackends =>
    exact (hc.releaseQuery hs releaseRemainingBackends ha).2

theorem Accounted.run (hs : Accounted s) {as : List (Action Host Query Coord Pool)}
    (hrun : RunSatisfies Action.Allowed s as) : Accounted (as.foldl AdmissionController.step s) := by
  induction as generalizing s with
  | nil => exact hs
  | cons a as ih => exact ih (hs.step hrun.1) hrun.2

theorem ReleasedCounted.run (hs : Accounted s) (hc : ReleasedCounted s)
    {as : List (Action Host Query Coord Pool)} (hrun : RunSatisfies Action.Exact s as) :
    ReleasedCounted (as.foldl AdmissionController.step s) := by
  induction as generalizing s with
  | nil => exact hc
  | cons a as ih => exact ih (hs.step hrun.1.allowed) (hc.step hs hrun.1) hrun.2

theorem RunSatisfies.mono {P Q : State Host Query Coord Pool → Action Host Query Coord Pool → Prop}
    (hPQ : ∀ s a, P s a → Q s a) {as : List (Action Host Query Coord Pool)} (hrun : RunSatisfies P s as) :
    RunSatisfies Q s as := by
  induction as generalizing s with
  | nil => trivial
  | cons a as ih => exact ⟨hPQ s a hrun.1, ih hrun.2⟩

/-- On every run from the empty controller in which each `ReleaseQueryBackends` names distinct
hosts that still hold a backend of the query, the `DCHECK` of `ReleaseQuery` holds: when it runs
with the remaining backends released, or none remain, the count of released backends is `0`. -/
theorem releaseQuery_dcheck_of_exact_run {as : List (Action Host Query Coord Pool)}
    (hrun : RunSatisfies Action.Exact State.initial as) (queryId : Query) (coordId : Coord)
    (releaseRemainingBackends : Bool)
    (hrem : ∀ rq, find? (coordId, queryId) (as.foldl step State.initial).runningQueries = some rq →
      releaseRemainingBackends = true ∨ rq.perBackendResources = []) :
    ((as.foldl step State.initial).releaseQuery queryId coordId releaseRemainingBackends).1 = true :=
  have hs := Accounted.initial.run (hrun.mono fun _ _ ha => Action.Exact.allowed ha)
  (ReleasedCounted.releaseQuery hs (ReleasedCounted.initial.run Accounted.initial hrun)
    releaseRemainingBackends hrem).1

end Runs

section Duplicates

variable {s : State Host Query Coord Pool} {queryId : Query} {coordId : Coord}
  {rq : RunningQuery Host Pool}

theorem releaseQuery_true_fst (hf : find? (coordId, queryId) s.runningQueries = some rq) :
    (s.releaseQuery queryId coordId true).1 =
      ((s.numReleasedBackends queryId).map (· - (rq.perBackendResources.length : Int)) == some 0) := by
  have hlen : (keys rq.perBackendResources).length = rq.perBackendResources.length :=
    List.length_map _
  simp only [State.releaseQuery, hf, Bool.true_and]
  split_ifs with hrel
  · obtain ⟨-, -, -, hnum⟩ := releaseQueryBackendsLocked_of_find (keys rq.perBackendResources) hf
    rw [hnum, Function.update_self, hlen]
  · have h0 : rq.perBackendResources.length = 0 := by
      simp only [decide_eq_true_eq, not_lt, Nat.le_zero] at hrel
      omega
    rw [h0]
    cases s.numReleasedBackends queryId <;> simp

/-- A release list naming one unreleased host twice, as a retried
ReleaseQueryBackends RPC can deliver it, keeps the memory accounting but
lowers the count by two for one backend: the count no longer matches, and
the DCHECK of the ReleaseQuery that follows fails. -/
theorem releaseQueryBackends_duplicate_host (s : State Host Query Coord Pool) (hs : Accounted s)
    (hc : ReleasedCounted s) (hf : find? (coordId, queryId) s.runningQueries = some rq) {h : Host}
    (hh : h ∈ keys rq.perBackendResources) :
    Accounted (s.releaseQueryBackendsLocked queryId coordId [h, h]) ∧
      ¬ ReleasedCounted (s.releaseQueryBackendsLocked queryId coordId [h, h]) ∧
      ((s.releaseQueryBackendsLocked queryId coordId [h, h]).releaseQuery queryId coordId true).1 =
        false := by
  obtain ⟨a, ha⟩ := find?_of_mem_keys hh
  have hnd : (keys rq.perBackendResources).Nodup := hs.backends_nodup _ (mem_of_find? hf)
  have hlen := length_erase hnd hh
  obtain ⟨-, -, hrun, hnum⟩ := releaseQueryBackendsLocked_of_find [h, h] hf
  rw [releaseBackends_duplicate s rq 0 ha] at hrun
  have hf' : find? (coordId, queryId) (s.releaseQueryBackendsLocked queryId coordId [h, h]).runningQueries =
      some { rq with perBackendResources := erase h rq.perBackendResources } := by
    rw [hrun]
    exact find?_replace_self _ (mem_keys_of_find? hf)
  have hnum' : (s.releaseQueryBackendsLocked queryId coordId [h, h]).numReleasedBackends queryId =
      some ((rq.perBackendResources.length : Int) - 2) := by
    rw [hnum, Function.update_self, hc _ (mem_of_find? hf)]
    rfl
  refine ⟨hs.releaseQueryBackendsLocked queryId coordId [h, h], fun hc' => ?_, ?_⟩
  · have hcount := hc' _ (mem_of_find? hf')
    rw [hnum'] at hcount
    simp only [Option.some.injEq] at hcount
    omega
  · rw [releaseQuery_true_fst hf', hnum', Option.map_some, beq_eq_false_iff_ne, ne_eq,
      Option.some.injEq]
    dsimp only
    omega

def twoBackendSchedule : ScheduleState Nat Nat Nat :=
  { queryId := 7, requestPool := 0, perBackendMemToAdmit := 100, coordBackendMemToAdmit := 50
    perBackendScheduleStates := [(1, ⟨true, 1⟩), (2, ⟨false, 1⟩)] }

theorem releaseQueryBackends_duplicate_host_twice :
    ¬ ReleasedCounted (((State.initial : State Nat Nat Nat Nat).admitQuery 0
        twoBackendSchedule).releaseQueryBackendsLocked 7 0 [2, 2]) ∧
      ((((State.initial : State Nat Nat Nat Nat).admitQuery 0
        twoBackendSchedule).releaseQueryBackendsLocked 7 0 [2, 2]).releaseQuery 7 0 true).1 = false :=
  have hadm : Admissible (State.initial : State Nat Nat Nat Nat) twoBackendSchedule :=
    ⟨by decide, by decide, by decide⟩
  (releaseQueryBackends_duplicate_host _ (Accounted.initial.admitQuery 0 hadm)
    (ReleasedCounted.initial.admitQuery 0 hadm) rfl (by decide)).2

theorem releaseQuery_dcheck_of_exact_run_two_backends :
    (([Action.admitQuery 0 twoBackendSchedule, .releaseQueryBackends 7 0 [2]].foldl step
      (State.initial : State Nat Nat Nat Nat)).releaseQuery 7 0 true).1 = true := by
  have hadm : Admissible (State.initial : State Nat Nat Nat Nat) twoBackendSchedule :=
    ⟨by decide, by decide, by decide⟩
  have hheld : ∀ r ∈ find? (0, 7) (step (State.initial : State Nat Nat Nat Nat)
      (.admitQuery 0 twoBackendSchedule)).runningQueries,
      ∀ h ∈ [2], h ∈ keys r.perBackendResources := by
    decide
  have hrun : RunSatisfies Action.Exact (State.initial : State Nat Nat Nat Nat)
      [.admitQuery 0 twoBackendSchedule, .releaseQueryBackends 7 0 [2]] :=
    ⟨hadm, ⟨by decide, hheld⟩, trivial⟩
  exact releaseQuery_dcheck_of_exact_run hrun 7 0 true (fun _ _ => .inl rfl)

end Duplicates

end Impala.AdmissionController
