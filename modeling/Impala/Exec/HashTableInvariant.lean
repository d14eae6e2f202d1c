import Impala.Exec.HashTable
import Impala.Lib.BucketArray

/-!
The hash table is a multimap. A table whose number of buckets is a power of two
keeps one bucket per key, each reachable from its hash's home bucket along the probe
sequence through filled buckets only. From that, `Probe` finds a stored key at its
bucket and a new key at the first empty bucket of its sequence, which is where
`Insert`, `SetTuple` and `ResizeBuckets` put it; so every run of inserts, resizes
and aggregation inserts keeps the invariant, the table's rows are those inserted,
and `FindProbeRow` with `NextDuplicate` yields exactly the rows of the key.
-/

set_option autoImplicit false

namespace Impala.HashTable

open Probing BucketArray Function

variable {K ρ : Type} [DecidableEq K] (cfg : HashTableConfig K ρ)

/-! ## The probe sequence -/

def seq (n hash s : Nat) : Nat := slot cfg.quadraticProbing n hash s

/-- A bucket `Probe` stops at: the same hash and, when rows are compared, the same
key. -/
def Matches (hash : Nat) (rowKey : Option K) (b : Bucket ρ) : Prop :=
  hash = b.hash ∧ rowKey.isSome = true ∧ b.rows.head?.map cfg.key = rowKey

/-- Step `s` meets a filled bucket that does not stop the probe. -/
def Passes (buckets : Nat → Option (Bucket ρ)) (n hash : Nat) (rowKey : Option K)
    (s : Nat) : Prop :=
  ∃ b, buckets (seq cfg n hash s) = some b ∧ ¬ Matches cfg hash rowKey b

/-- What `Probe` may return when it reaches step `s`: the first later step that meets
an empty or a matching bucket, or `notFound` when every step up to `n` passes. -/
def ProbeOK (buckets : Nat → Option (Bucket ρ)) (n hash : Nat) (rowKey : Option K)
    (s : Nat) : ProbeResult → Prop
  | .empty j => ∃ s', s ≤ s' ∧ s' < n ∧ seq cfg n hash s' = j ∧ buckets j = none ∧
      ∀ s'', s ≤ s'' → s'' < s' → Passes cfg buckets n hash rowKey s''
  | .found j => ∃ s', s ≤ s' ∧ s' < n ∧ seq cfg n hash s' = j ∧
      (∃ b, buckets j = some b ∧ Matches cfg hash rowKey b) ∧
      ∀ s'', s ≤ s'' → s'' < s' → Passes cfg buckets n hash rowKey s''
  | .notFound => ∀ s'', s ≤ s'' → s'' < n → Passes cfg buckets n hash rowKey s''

section Probe

variable {buckets : Nat → Option (Bucket ρ)} {n hash : Nat} {rowKey : Option K}

omit [DecidableEq K] in
theorem ProbeOK.cons {s : Nat} {r : ProbeResult} (hs : Passes cfg buckets n hash rowKey s)
    (h : ProbeOK cfg buckets n hash rowKey (s + 1) r) : ProbeOK cfg buckets n hash rowKey s r := by
  have hext : ∀ {m : Nat} (_ : ∀ s'', s + 1 ≤ s'' → s'' < m → Passes cfg buckets n hash rowKey s''),
      ∀ s'', s ≤ s'' → s'' < m → Passes cfg buckets n hash rowKey s'' := by
    intro m hm s'' hle hlt
    rcases Nat.eq_or_lt_of_le hle with rfl | hlt'
    · exact hs
    · exact hm s'' hlt' hlt
  cases r with
  | empty j =>
    obtain ⟨s', h1, h2, h3, h4, h5⟩ := h
    exact ⟨s', by omega, h2, h3, h4, hext h5⟩
  | found j =>
    obtain ⟨s', h1, h2, h3, h4, h5⟩ := h
    exact ⟨s', by omega, h2, h3, h4, hext h5⟩
  | notFound => exact hext h

omit [DecidableEq K] in
theorem next_idx {k : Nat} (hn : n = 2^k) (s : Nat) :
    (seq cfg n hash s + (if cfg.quadraticProbing then s + 1 else 1)) &&& (n - 1) =
      seq cfg n hash (s + 1) := by
  subst hn
  rw [Nat.and_two_pow_sub_one_eq_mod, seq, seq, slot_succ]

theorem probeLoop_ok {k : Nat} (hn : n = 2^k) (fuel s : Nat) (hfs : s + fuel = n) :
    ProbeOK cfg buckets n hash rowKey s
      (probeLoop cfg buckets n hash rowKey fuel s (seq cfg n hash s)) := by
  induction fuel generalizing s with
  | zero =>
    intro s'' h1 h2
    omega
  | succ fuel ih =>
    rw [probeLoop]
    cases hb : buckets (seq cfg n hash s) with
    | none => exact ⟨s, le_rfl, by omega, rfl, hb, fun s'' h1 h2 => by omega⟩
    | some b =>
      simp only
      by_cases hm : hash = b.hash ∧ rowKey.isSome = true ∧ b.rows.head?.map cfg.key = rowKey
      · rw [if_pos hm]
        exact ⟨s, le_rfl, by omega, rfl, ⟨b, hb, hm⟩, fun s'' h1 h2 => by omega⟩
      · rw [if_neg hm]
        have hpass : Passes cfg buckets n hash rowKey s := ⟨b, hb, hm⟩
        by_cases hlt : s + 1 < n
        · rw [if_pos hlt, next_idx cfg hn]
          exact (ih (s + 1) (by omega)).cons cfg hpass
        · rw [if_neg hlt]
          intro s'' h1 h2
          rwa [show s'' = s by omega]

theorem probe_ok {k : Nat} (hn : n = 2^k) :
    ProbeOK cfg buckets n hash rowKey 0 (probe cfg buckets n hash rowKey) := by
  have h0 : hash &&& (n - 1) = seq cfg n hash 0 := by
    subst hn
    rw [Nat.and_two_pow_sub_one_eq_mod, seq, slot_zero]
  rw [probe, h0]
  exact probeLoop_ok cfg hn n 0 (by omega)

omit [DecidableEq K] in
theorem probeIdx_eq_seq {k : Nat} (hn : n = 2^k) (s : Nat) :
    probeIdx cfg n hash s = seq cfg n hash s := by
  induction s with
  | zero =>
    subst hn
    rw [probeIdx, Nat.and_two_pow_sub_one_eq_mod, seq, slot_zero]
  | succ s ih => rw [probeIdx, ih, next_idx cfg hn]

end Probe

/-- Probing visits every bucket: over a power of two of buckets, the first `num_buckets`
indices `Probe` computes are distinct buckets of the table, so they are all of them, and
`Probe` returns `BUCKET_NOT_FOUND` only when every bucket is filled. -/
theorem probe_visits_every_bucket {n k : Nat} (hn : n = 2^k) (hash : Nat) :
    (∀ s < n, probeIdx cfg n hash s < n) ∧
    (∀ s t, s < n → t < n → probeIdx cfg n hash s = probeIdx cfg n hash t → s = t) ∧
    ∀ (buckets : Nat → Option (Bucket ρ)) (rowKey : Option K),
      probe cfg buckets n hash rowKey = .notFound → ∀ i < n, (buckets i).isSome = true := by
  subst hn
  refine ⟨fun s _ => ?_, fun s t hs ht h => ?_, fun buckets rowKey hnf i hi => ?_⟩
  · rw [probeIdx_eq_seq cfg rfl]
    exact slot_lt _ (Nat.two_pow_pos k) _ _
  · rw [probeIdx_eq_seq cfg rfl, probeIdx_eq_seq cfg rfl] at h
    exact slot_injective cfg.quadraticProbing hash hs ht h
  · have hok : ProbeOK cfg buckets (2^k) hash rowKey 0 (probe cfg buckets (2^k) hash rowKey) :=
      probe_ok cfg rfl
    rw [hnf] at hok
    obtain ⟨s, hs, hseq⟩ := slot_surjective cfg.quadraticProbing hash hi
    obtain ⟨b, hb, -⟩ := hok s (Nat.zero_le _) hs
    rw [seq, hseq] at hb
    simp [hb]

theorem probe_visits_every_bucket_eight :
    (∀ s < 8, probeIdx (⟨true, false, none, id, id⟩ : HashTableConfig Nat Nat) 8 13 s < 8) ∧
    (∀ s t, s < 8 → t < 8 →
      probeIdx (⟨true, false, none, id, id⟩ : HashTableConfig Nat Nat) 8 13 s =
        probeIdx (⟨true, false, none, id, id⟩ : HashTableConfig Nat Nat) 8 13 t → s = t) ∧
    ∀ (buckets : Nat → Option (Bucket Nat)) (rowKey : Option Nat),
      probe (⟨true, false, none, id, id⟩ : HashTableConfig Nat Nat) buckets 8 13 rowKey =
        .notFound → ∀ i < 8, (buckets i).isSome = true :=
  probe_visits_every_bucket _ (by norm_num : 8 = 2^3) 13

/-! ## The invariant -/

def keyOf (b : Bucket ρ) : Option K := b.rows.head?.map cfg.key

/-- A bucket as `Insert` and `SetTuple` build it: rows of one key, the hash of that
key, and duplicate nodes only in a table that stores duplicates. -/
structure BucketOK (b : Bucket ρ) : Prop where
  keys : ∃ k, keyOf cfg b = some k ∧ b.hash = cfg.hash k ∧ ∀ r ∈ b.rows, cfg.key r = k
  dup : b.hasDuplicates = true → cfg.storesDuplicates = true

/-- Bucket `j` is reachable from the home bucket of `hash`: some step of the
sequence lands on it, and every step before meets a filled bucket. -/
def Reachable (buckets : Nat → Option (Bucket ρ)) (n hash j : Nat) : Prop :=
  ∃ s < n, seq cfg n hash s = j ∧ ∀ s' < s, (buckets (seq cfg n hash s')).isSome = true

/-- The invariant of the bucket array. -/
structure ArrayInv (buckets : Nat → Option (Bucket ρ)) (n : Nat) : Prop where
  pow : ∃ k, n = 2^k
  outside : ∀ i, n ≤ i → buckets i = none
  bucketOK : ∀ i b, buckets i = some b → BucketOK cfg b
  distinct : ∀ i j bi bj, buckets i = some bi → buckets j = some bj →
    keyOf cfg bi = keyOf cfg bj → i = j
  reach : ∀ j b, buckets j = some b → Reachable cfg buckets n b.hash j

/-- The invariant of a table: its array, and `num_filled_buckets_` counts the filled
buckets. -/
structure Inv (t : HashTable ρ) : Prop where
  array : ArrayInv cfg t.buckets t.numBuckets
  count : t.numFilledBuckets = (filled t.buckets t.numBuckets).card

def stored (t : HashTable ρ) : List ρ := collect Bucket.rows t.buckets 0 t.numBuckets

section ArrayInv

variable {cfg} {buckets : Nat → Option (Bucket ρ)} {n : Nat}

omit [DecidableEq K] in
theorem ArrayInv.pos (h : ArrayInv cfg buckets n) : 0 < n := by
  obtain ⟨k, rfl⟩ := h.pow
  exact Nat.two_pow_pos k

omit [DecidableEq K] in
theorem ArrayInv.seq_lt (h : ArrayInv cfg buckets n) (hash s : Nat) : seq cfg n hash s < n :=
  slot_lt _ h.pos _ _

omit [DecidableEq K] in
theorem ArrayInv.empty (hn : ∃ k, n = 2^k) : ArrayInv cfg (fun _ => none) n where
  pow := hn
  outside := fun _ _ => rfl
  bucketOK := fun _ _ h => by simp at h
  distinct := fun _ _ _ _ h => by simp at h
  reach := fun _ _ h => by simp at h

omit [DecidableEq K] in
theorem ArrayInv.lt_of_some (h : ArrayInv cfg buckets n) {j : Nat} {b : Bucket ρ}
    (hj : buckets j = some b) : j < n := by
  by_contra hjn
  rw [h.outside j (by omega)] at hj
  cases hj

omit [DecidableEq K] in
theorem BucketOK.keyOf_eq {b : Bucket ρ} (hb : BucketOK cfg b) {r : ρ} (hr : r ∈ b.rows) :
    keyOf cfg b = some (cfg.key r) := by
  obtain ⟨k, hk, -, hrows⟩ := hb.keys
  rw [hk, hrows r hr]

theorem ArrayInv.probe_found (h : ArrayInv cfg buckets n) {j : Nat} {b : Bucket ρ} {k : K}
    (hj : buckets j = some b) (hk : keyOf cfg b = some k) :
    probe cfg buckets n (cfg.hash k) (some k) = .found j := by
  obtain ⟨kk, hpow⟩ := h.pow
  obtain ⟨k', hk', hhash, -⟩ := (h.bucketOK j b hj).keys
  obtain rfl : k' = k := Option.some.inj (hk'.symm.trans hk)
  obtain ⟨s0, hs0, hseq0, hpath⟩ := h.reach j b hj
  rw [hhash] at hseq0 hpath
  have hmatch : Matches cfg (cfg.hash k') (some k') b := ⟨hhash.symm, rfl, hk'⟩
  have hok : ProbeOK cfg buckets n (cfg.hash k') (some k') 0
      (probe cfg buckets n (cfg.hash k') (some k')) := probe_ok cfg hpow
  generalize probe cfg buckets n (cfg.hash k') (some k') = r at hok ⊢
  cases r with
  | empty j' =>
    obtain ⟨s', -, -, hseq, hnone, hpass⟩ := hok
    rcases Nat.lt_trichotomy s' s0 with hlt | rfl | hgt
    · have hfilled := hpath s' hlt
      rw [hseq, hnone] at hfilled
      cases hfilled
    · rw [hseq0] at hseq
      rw [← hseq, hj] at hnone
      cases hnone
    · obtain ⟨b', hb', hnm⟩ := hpass s0 (Nat.zero_le _) hgt
      rw [hseq0, hj] at hb'
      cases hb'
      exact absurd hmatch hnm
  | found j' =>
    obtain ⟨-, -, -, -, ⟨b', hb', hm'⟩, -⟩ := hok
    rw [h.distinct j' j b' b hb' hj (hm'.2.2.trans hk'.symm)]
  | notFound =>
    obtain ⟨b', hb', hnm⟩ := hok s0 (Nat.zero_le _) hs0
    rw [hseq0, hj] at hb'
    cases hb'
    exact absurd hmatch hnm

theorem ArrayInv.probe_empty (h : ArrayInv cfg buckets n) {hash : Nat} {rowKey : Option K}
    (hfree : ∃ i < n, buckets i = none)
    (hnm : ∀ i b, buckets i = some b → ¬ Matches cfg hash rowKey b) :
    ∃ s < n, probe cfg buckets n hash rowKey = .empty (seq cfg n hash s) ∧
      buckets (seq cfg n hash s) = none ∧
      ∀ s' < s, (buckets (seq cfg n hash s')).isSome = true := by
  obtain ⟨kk, hpow⟩ := h.pow
  have hok : ProbeOK cfg buckets n hash rowKey 0 (probe cfg buckets n hash rowKey) :=
    probe_ok cfg hpow
  generalize probe cfg buckets n hash rowKey = r at hok ⊢
  cases r with
  | empty j =>
    obtain ⟨s', -, hs', rfl, hnone, hpass⟩ := hok
    refine ⟨s', hs', rfl, hnone, fun s'' hlt => ?_⟩
    obtain ⟨b, hb, -⟩ := hpass s'' (Nat.zero_le _) hlt
    simp [hb]
  | found j =>
    obtain ⟨-, -, -, -, ⟨b, hb, hm⟩, -⟩ := hok
    exact absurd hm (hnm j b hb)
  | notFound =>
    obtain ⟨i, hi, hnone⟩ := hfree
    subst hpow
    obtain ⟨s, hs, hseq⟩ := slot_surjective cfg.quadraticProbing hash hi
    obtain ⟨b, hb, -⟩ := hok s (Nat.zero_le _) hs
    rw [seq, hseq, hnone] at hb
    cases hb

omit [DecidableEq K] in
theorem ArrayInv.place (h : ArrayInv cfg buckets n) {b : Bucket ρ} (hb : BucketOK cfg b)
    (habs : ∀ i b', buckets i = some b' → keyOf cfg b' ≠ keyOf cfg b) {s : Nat} (hs : s < n)
    (hpath : ∀ s' < s, (buckets (seq cfg n b.hash s')).isSome = true) :
    ArrayInv cfg (update buckets (seq cfg n b.hash s) (some b)) n := by
  set j := seq cfg n b.hash s with hjdef
  have hupd : ∀ {i b'}, update buckets j (some b) i = some b' →
      (i = j ∧ b' = b) ∨ (i ≠ j ∧ buckets i = some b') := by
    intro i b' hi
    by_cases hij : i = j
    · subst hij; simp at hi; exact Or.inl ⟨rfl, hi.symm⟩
    · rw [update_of_ne hij] at hi; exact Or.inr ⟨hij, hi⟩
  refine ⟨h.pow, fun i hi => ?_, fun i b' hi => ?_, fun i i' bi bi' hi hi' hkey => ?_,
    fun i b' hi => ?_⟩
  · rw [update_of_ne (by have := h.seq_lt b.hash s; omega)]
    exact h.outside i hi
  · rcases hupd hi with ⟨-, hbi⟩ | ⟨-, hi⟩
    · rw [hbi]
      exact hb
    · exact h.bucketOK i b' hi
  · rcases hupd hi with ⟨hij, hbi⟩ | ⟨-, hi⟩
    · rcases hupd hi' with ⟨hij', -⟩ | ⟨-, hi'⟩
      · exact hij.trans hij'.symm
      · rw [hbi] at hkey
        exact absurd hkey.symm (habs i' bi' hi')
    · rcases hupd hi' with ⟨-, hbi'⟩ | ⟨-, hi'⟩
      · rw [hbi'] at hkey
        exact absurd hkey (habs i bi hi)
      · exact h.distinct i i' bi bi' hi hi' hkey
  · rcases hupd hi with ⟨hij, hbi⟩ | ⟨-, hi⟩
    · rw [hij, hbi]
      exact ⟨s, hs, rfl, fun s' hs' => isSome_update_of_isSome j b (hpath s' hs')⟩
    · obtain ⟨s', hs', hseq, hpath'⟩ := h.reach i b' hi
      exact ⟨s', hs', hseq, fun s'' hs'' => isSome_update_of_isSome j b (hpath' s'' hs'')⟩

omit [DecidableEq K] in
theorem ArrayInv.replace (h : ArrayInv cfg buckets n) {j : Nat} {b b' : Bucket ρ}
    (hj : buckets j = some b) (hb' : BucketOK cfg b') (hkey : keyOf cfg b' = keyOf cfg b)
    (hhash : b'.hash = b.hash) : ArrayInv cfg (update buckets j (some b')) n := by
  have hupd : ∀ {i c}, update buckets j (some b') i = some c →
      (i = j ∧ c = b') ∨ (i ≠ j ∧ buckets i = some c) := by
    intro i c hi
    by_cases hij : i = j
    · subst hij; simp at hi; exact Or.inl ⟨rfl, hi.symm⟩
    · rw [update_of_ne hij] at hi; exact Or.inr ⟨hij, hi⟩
  have hold : ∀ {i c}, update buckets j (some b') i = some c →
      ∃ c', buckets i = some c' ∧ keyOf cfg c = keyOf cfg c' ∧ c.hash = c'.hash := by
    intro i c hi
    rcases hupd hi with ⟨rfl, rfl⟩ | ⟨-, hi⟩
    · exact ⟨b, hj, hkey, hhash⟩
    · exact ⟨c, hi, rfl, rfl⟩
  have hfill : ∀ i, (buckets i).isSome = true → (update buckets j (some b') i).isSome = true :=
    fun i hi => isSome_update_of_isSome j b' hi
  refine ⟨h.pow, fun i hi => ?_, fun i c hi => ?_, fun i i' c c' hi hi' hk => ?_,
    fun i c hi => ?_⟩
  · have hjn : j < n := by
      by_contra hjn
      rw [h.outside j (by omega)] at hj
      cases hj
    rw [update_of_ne (by omega)]
    exact h.outside i hi
  · rcases hupd hi with ⟨-, rfl⟩ | ⟨-, hi⟩
    · exact hb'
    · exact h.bucketOK i c hi
  · obtain ⟨d, hd, hdk, -⟩ := hold hi
    obtain ⟨d', hd', hdk', -⟩ := hold hi'
    exact h.distinct i i' d d' hd hd' (hdk.symm.trans (hk.trans hdk'))
  · obtain ⟨d, hd, -, hdh⟩ := hold hi
    obtain ⟨s, hs, hseq, hpath⟩ := h.reach i d hd
    rw [hdh]
    exact ⟨s, hs, hseq, fun s' hs' => hfill _ (hpath s' hs')⟩

end ArrayInv

/-! ## Storing rows -/

section Store

variable {cfg} {t : HashTable ρ}

omit [DecidableEq K] in
theorem mem_stored {r : ρ} : r ∈ stored t ↔ ∃ i < t.numBuckets, ∃ b, t.buckets i = some b ∧ r ∈ b.rows := by
  simp only [stored, mem_collect, Nat.zero_le, true_and, Nat.zero_add]
  constructor
  · rintro ⟨i, hi, hr⟩
    cases hb : t.buckets i with
    | none => simp [hb] at hr
    | some b => exact ⟨i, hi, b, hb, by simpa [hb] using hr⟩
  · rintro ⟨i, hi, b, hb, hr⟩
    exact ⟨i, hi, by simpa [hb] using hr⟩

omit [DecidableEq K] in
theorem Inv.exists_empty (hinv : Inv cfg t) (hfree : t.numFilledBuckets < t.numBuckets) :
    ∃ i < t.numBuckets, t.buckets i = none :=
  exists_none_of_card_filled_lt (hinv.count ▸ hfree)

omit [DecidableEq K] in
theorem Inv.keyOf_ne (hinv : Inv cfg t) {k : K} (habs : ∀ r ∈ stored t, cfg.key r ≠ k) :
    ∀ i b, t.buckets i = some b → keyOf cfg b ≠ some k := by
  intro i b hb hk
  obtain ⟨k', hk', -, hrows⟩ := (hinv.array.bucketOK i b hb).keys
  have hi : i < t.numBuckets := by
    by_contra hi
    rw [hinv.array.outside i (by omega)] at hb
    cases hb
  cases hrow : b.rows with
  | nil => simp [keyOf, hrow] at hk
  | cons r rest =>
    have hkr : cfg.key r = k := by simpa [keyOf, hrow] using hk
    exact habs r (mem_stored.2 ⟨i, hi, b, hb, by simp [hrow]⟩) hkr

omit [DecidableEq K] in
theorem Inv.fill (hinv : Inv cfg t) {row : ρ} (habs : ∀ r ∈ stored t, cfg.key r ≠ cfg.key row)
    {s : Nat} (hs : s < t.numBuckets)
    (hempty : t.buckets (seq cfg t.numBuckets (cfg.hash (cfg.key row)) s) = none)
    (hpath : ∀ s' < s,
      (t.buckets (seq cfg t.numBuckets (cfg.hash (cfg.key row)) s')).isSome = true) :
    Inv cfg (fillBucket t (seq cfg t.numBuckets (cfg.hash (cfg.key row)) s)
        (cfg.hash (cfg.key row)) row) ∧
      (stored (fillBucket t (seq cfg t.numBuckets (cfg.hash (cfg.key row)) s)
        (cfg.hash (cfg.key row)) row)).Perm (row :: stored t) := by
  set j := seq cfg t.numBuckets (cfg.hash (cfg.key row)) s
  let b : Bucket ρ := ⟨cfg.hash (cfg.key row), .htdata row⟩
  have hb : BucketOK cfg b :=
    ⟨⟨cfg.key row, rfl, rfl, by simp [b, Bucket.rows]⟩, by simp [b, Bucket.hasDuplicates]⟩
  have hkeys : ∀ i b', t.buckets i = some b' → keyOf cfg b' ≠ keyOf cfg b :=
    fun i b' hb' => hinv.keyOf_ne habs i b' hb'
  have hj : j < t.numBuckets := hinv.array.seq_lt _ _
  refine ⟨⟨hinv.array.place hb hkeys hs hpath, ?_⟩, ?_⟩
  · simp only [fillBucket]
    rw [card_filled_update_of_none b hj hempty, hinv.count]
  · have hperm := collect_update_perm Bucket.rows t.buckets b (s := 0) (k := t.numBuckets)
      (Nat.zero_le j) (by omega)
    rw [held_none _ hempty] at hperm
    exact hperm.symm

omit [DecidableEq K] in
theorem insertDuplicateNode_eq_some {j : Nat} {row : ρ} {g : Bool} {t' : HashTable ρ}
    {b : Bucket ρ} (hj : t.buckets j = some b) (h : insertDuplicateNode t j row g = some t') :
    t'.buckets = update t.buckets j (some ⟨b.hash, .duplicates (row :: b.rows)⟩) ∧
      t'.numBuckets = t.numBuckets ∧ t'.numFilledBuckets = t.numFilledBuckets := by
  simp only [insertDuplicateNode, hj, Option.map_eq_some_iff] at h
  obtain ⟨-, -, rfl⟩ := h
  exact ⟨rfl, rfl, rfl⟩

omit [DecidableEq K] in
theorem Inv.addDuplicate (hinv : Inv cfg t) (hsd : cfg.storesDuplicates = true) {j : Nat}
    {b : Bucket ρ} {row : ρ} (hj : t.buckets j = some b) (hk : keyOf cfg b = some (cfg.key row))
    {t' : HashTable ρ}
    (ht' : t'.buckets = update t.buckets j (some ⟨b.hash, .duplicates (row :: b.rows)⟩))
    (hn : t'.numBuckets = t.numBuckets) (hf : t'.numFilledBuckets = t.numFilledBuckets) :
    Inv cfg t' ∧ (stored t').Perm (row :: stored t) := by
  let b' : Bucket ρ := ⟨b.hash, .duplicates (row :: b.rows)⟩
  obtain ⟨k, hk', hhash, hrows⟩ := (hinv.array.bucketOK j b hj).keys
  obtain rfl : k = cfg.key row := Option.some.inj (hk'.symm.trans hk)
  have hkey : keyOf cfg b' = keyOf cfg b := by
    rw [hk]
    rfl
  have hb' : BucketOK cfg b' := by
    refine ⟨⟨cfg.key row, hkey.trans hk, hhash, fun r hr => ?_⟩, fun _ => hsd⟩
    simp only [b', Bucket.rows, List.mem_cons] at hr
    rcases hr with rfl | hr
    · rfl
    · exact hrows r hr
  have hjn : j < t.numBuckets := by
    by_contra hjn
    rw [hinv.array.outside j (by omega)] at hj
    cases hj
  refine ⟨⟨?_, ?_⟩, ?_⟩
  · rw [ht', hn]
    exact hinv.array.replace hj hb' hkey rfl
  · rw [ht', hn, hf, filled_update_of_isSome b' (by simp [hj]), hinv.count]
  · have hperm := collect_update_perm Bucket.rows t.buckets b' (s := 0) (k := t.numBuckets)
      (Nat.zero_le j) (by omega)
    rw [held_some _ hj] at hperm
    have hmid : (b.rows ++ row :: stored t).Perm (b'.rows ++ stored t) := List.perm_middle
    unfold stored
    rw [ht', hn]
    exact ((List.perm_append_left_iff b.rows).1 (hmid.trans hperm)).symm

theorem insert_of_found_some {row : ρ} {g : Bool} {j : Nat} {t' : HashTable ρ}
    (h : probe cfg t.buckets t.numBuckets (cfg.hash (cfg.key row)) (some (cfg.key row)) = .found j)
    (hins : insertDuplicateNode t j row g = some t') : insert cfg t row g = (t', true) := by
  simp only [insert, h, hins]

theorem insert_of_found_none {row : ρ} {g : Bool} {j : Nat}
    (h : probe cfg t.buckets t.numBuckets (cfg.hash (cfg.key row)) (some (cfg.key row)) = .found j)
    (hins : insertDuplicateNode t j row g = none) : insert cfg t row g = (t, false) := by
  simp only [insert, h, hins]

theorem insert_of_empty {row : ρ} {g : Bool} {j : Nat}
    (h : probe cfg t.buckets t.numBuckets (cfg.hash (cfg.key row)) (some (cfg.key row)) = .empty j) :
    insert cfg t row g = (fillBucket t j (cfg.hash (cfg.key row)) row, true) := by
  simp only [insert, h]

theorem Inv.probe_cases (hinv : Inv cfg t) (hfree : t.numFilledBuckets < t.numBuckets) (k : K) :
    (∃ j b, t.buckets j = some b ∧ keyOf cfg b = some k ∧
      probe cfg t.buckets t.numBuckets (cfg.hash k) (some k) = .found j) ∨
    ((∀ r ∈ stored t, cfg.key r ≠ k) ∧ ∃ s < t.numBuckets,
      probe cfg t.buckets t.numBuckets (cfg.hash k) (some k) =
        .empty (seq cfg t.numBuckets (cfg.hash k) s) ∧
      t.buckets (seq cfg t.numBuckets (cfg.hash k) s) = none ∧
      ∀ s' < s, (t.buckets (seq cfg t.numBuckets (cfg.hash k) s')).isSome = true) := by
  by_cases hpres : ∃ j b, t.buckets j = some b ∧ keyOf cfg b = some k
  · obtain ⟨j, b, hj, hk⟩ := hpres
    exact Or.inl ⟨j, b, hj, hk, hinv.array.probe_found hj hk⟩
  · have habs : ∀ r ∈ stored t, cfg.key r ≠ k := by
      intro r hr hkr
      obtain ⟨i, -, b, hb, hrb⟩ := mem_stored.1 hr
      exact hpres ⟨i, b, hb, by rw [(hinv.array.bucketOK i b hb).keyOf_eq hrb, hkr]⟩
    have hnm : ∀ i b, t.buckets i = some b → ¬ Matches cfg (cfg.hash k) (some k) b :=
      fun i b hb hm => hinv.keyOf_ne habs i b hb hm.2.2
    exact Or.inr ⟨habs, hinv.array.probe_empty (hinv.exists_empty hfree) hnm⟩

theorem Inv.insert_spec (hinv : Inv cfg t) (hfree : t.numFilledBuckets < t.numBuckets) {row : ρ}
    (hdup : cfg.storesDuplicates = true ∨ ∀ r ∈ stored t, cfg.key r ≠ cfg.key row) (g : Bool) :
    Inv cfg (insert cfg t row g).1 ∧
      (stored (insert cfg t row g).1).Perm
        (if (insert cfg t row g).2 then row :: stored t else stored t) := by
  rcases hinv.probe_cases hfree (cfg.key row) with ⟨j, b, hj, hk, hprobe⟩ |
    ⟨habs, s, hs, hprobe, hempty, hpath⟩
  · have hsd : cfg.storesDuplicates = true :=
      hdup.resolve_right fun habs => hinv.keyOf_ne habs j b hj hk
    cases hins : insertDuplicateNode t j row g with
    | none =>
      rw [insert_of_found_none hprobe hins]
      exact ⟨hinv, by simp⟩
    | some t' =>
      rw [insert_of_found_some hprobe hins]
      obtain ⟨hb, hn, hf⟩ := insertDuplicateNode_eq_some hj hins
      simpa using hinv.addDuplicate hsd hj hk hb hn hf
  · rw [insert_of_empty hprobe]
    simpa using hinv.fill habs hs hempty hpath

theorem Inv.findOrSetTuple_spec (hinv : Inv cfg t) (hfree : t.numFilledBuckets < t.numBuckets)
    (row : ρ) :
    Inv cfg (findOrSetTuple cfg t row).1 ∧
      (stored (findOrSetTuple cfg t row).1).Perm
        (if (findOrSetTuple cfg t row).2 then row :: stored t else stored t) ∧
      ((findOrSetTuple cfg t row).2 = true ↔ ∀ r ∈ stored t, cfg.key r ≠ cfg.key row) := by
  rcases hinv.probe_cases hfree (cfg.key row) with ⟨j, b, hj, hk, hprobe⟩ |
    ⟨habs, s, hs, hprobe, hempty, hpath⟩
  · have hres : findOrSetTuple cfg t row = (t, false) := by
      simp [findOrSetTuple, findBuildRowBucket, hprobe]
    rw [hres]
    refine ⟨hinv, by simp, ?_⟩
    simp only [Bool.false_eq_true, false_iff, not_forall, not_not]
    obtain ⟨k, hk', -, hrows⟩ := (hinv.array.bucketOK j b hj).keys
    cases hrow : b.rows with
    | nil => simp [keyOf, hrow] at hk'
    | cons r rest =>
      refine ⟨r, mem_stored.2 ⟨j, hinv.array.lt_of_some hj, b, hj, by simp [hrow]⟩, ?_⟩
      have : some (cfg.key r) = some (cfg.key row) := by simpa [keyOf, hrow] using hk
      exact Option.some.inj this
  · have hres : findOrSetTuple cfg t row =
        (fillBucket t (seq cfg t.numBuckets (cfg.hash (cfg.key row)) s) (cfg.hash (cfg.key row)) row,
          true) := by
      simp [findOrSetTuple, findBuildRowBucket, hprobe, Iterator.atEnd, bucketNotFound,
        Iterator.setTuple]
    rw [hres]
    exact ⟨(hinv.fill habs hs hempty hpath).1, by simpa using (hinv.fill habs hs hempty hpath).2,
      by simpa using habs⟩

end Store

/-! ## Resizing -/

/-- The new array part-way through the copy loop of `ResizeBuckets`, once the old
buckets `P` are copied: an array with the invariant, holding those buckets. -/
structure ResizeInv (old : Nat → Option (Bucket ρ)) (P : List Nat) (nb : Nat → Option (Bucket ρ))
    (n' : Nat) : Prop where
  array : ArrayInv cfg nb n'
  origin : ∀ j b, nb j = some b → ∃ i ∈ P, old i = some b
  count : (filled nb n').card = (P.filter fun i => (old i).isSome).length
  rows : (collect Bucket.rows nb 0 n').Perm (P.flatMap (held Bucket.rows old))

section Resize

variable {cfg} {old : Nat → Option (Bucket ρ)} {n n' : Nat}

omit [DecidableEq K] in
theorem ResizeInv.start (hn' : ∃ k, n' = 2^k) : ResizeInv cfg old [] (fun _ => none) n' where
  array := ArrayInv.empty hn'
  origin := fun _ _ h => by simp at h
  count := by simp [filled]
  rows := by simp [collect_of_none]

theorem ResizeInv.step (hold : ArrayInv cfg old n) (hfit : (filled old n).card < n')
    {P : List Nat} {i : Nat} {nb : Nat → Option (Bucket ρ)} (hnd : (P ++ [i]).Nodup)
    (hlt : ∀ x ∈ P ++ [i], x < n) (h : ResizeInv cfg old P nb n') :
    ResizeInv cfg old (P ++ [i]) (resizeLoop cfg n' old [i] nb) n' := by
  have hiP : i ∉ P := by
    intro hi
    exact (List.nodup_append.1 hnd).2.2 i hi i (List.mem_singleton_self i) rfl
  cases hoi : old i with
  | none =>
    simp only [resizeLoop, hoi]
    refine ⟨h.array, fun j b hb => ?_, ?_, ?_⟩
    · obtain ⟨i', hi', hb'⟩ := h.origin j b hb
      exact ⟨i', List.mem_append_left _ hi', hb'⟩
    · simp [h.count, hoi]
    · simpa [held_none _ hoi] using h.rows
  | some b =>
    have hcopied : (filled nb n').card < n' := by
      have := length_filter_le_card_filled old hnd hlt
      rw [List.filter_append] at this
      simp only [hoi, List.filter_cons, Option.isSome_some, if_true, List.filter_nil,
        List.length_append, List.length_singleton] at this
      rw [h.count]; omega
    have hnm : ∀ j c, nb j = some c → ¬ Matches cfg b.hash none c :=
      fun _ _ _ hm => by simp [Matches] at hm
    obtain ⟨s, hs, hprobe, hempty, hpath⟩ :=
      h.array.probe_empty (exists_none_of_card_filled_lt hcopied) hnm
    simp only [resizeLoop, hoi, hprobe]
    have hkeys : ∀ j c, nb j = some c → keyOf cfg c ≠ keyOf cfg b := by
      intro j c hc hk
      obtain ⟨i', hi', hc'⟩ := h.origin j c hc
      have := hold.distinct i' i c b hc' hoi hk
      exact hiP (this ▸ hi')
    have hj := h.array.seq_lt b.hash s
    refine ⟨h.array.place (hold.bucketOK i b hoi) hkeys hs hpath, fun j c hc => ?_, ?_, ?_⟩
    · by_cases hji : j = seq cfg n' b.hash s
      · subst hji
        simp only [update_self, Option.some.injEq] at hc
        exact ⟨i, by simp, hc ▸ hoi⟩
      · rw [update_of_ne hji] at hc
        obtain ⟨i', hi', hc'⟩ := h.origin j c hc
        exact ⟨i', List.mem_append_left _ hi', hc'⟩
    · rw [card_filled_update_of_none b hj hempty, h.count]
      simp [hoi]
    · have hperm := collect_update_perm Bucket.rows nb b (s := 0) (k := n')
        (j := seq cfg n' b.hash s) (Nat.zero_le _) (by omega)
      rw [held_none _ hempty] at hperm
      refine hperm.symm.trans ?_
      rw [List.flatMap_append, List.flatMap_singleton, held_some _ hoi]
      exact (h.rows.append_left _).trans (List.perm_append_comm)

theorem resizeLoop_cons (i : Nat) (is : List Nat) (nb : Nat → Option (Bucket ρ)) :
    resizeLoop cfg n' old (i :: is) nb = resizeLoop cfg n' old is (resizeLoop cfg n' old [i] nb) := by
  simp only [resizeLoop]
  split
  · rfl
  · split <;> rfl

theorem ResizeInv.loop (hold : ArrayInv cfg old n) (hfit : (filled old n).card < n') :
    ∀ (is P : List Nat) (nb : Nat → Option (Bucket ρ)), (P ++ is).Nodup → (∀ x ∈ P ++ is, x < n) →
      ResizeInv cfg old P nb n' → ResizeInv cfg old (P ++ is) (resizeLoop cfg n' old is nb) n'
  | [], P, nb, _, _, h => by simpa [resizeLoop] using h
  | i :: is, P, nb, hnd, hlt, h => by
    have hnd' : (P ++ [i] ++ is).Nodup := by simpa using hnd
    have hlt' : ∀ x ∈ P ++ [i] ++ is, x < n := by simpa using hlt
    have hstep := h.step hold hfit (hnd'.sublist (List.sublist_append_left _ _))
      (fun x hx => hlt' x (List.mem_append_left _ hx))
    have hrest := ResizeInv.loop hold hfit is (P ++ [i]) _ hnd' hlt' hstep
    rw [resizeLoop_cons]
    simpa using hrest

variable {t : HashTable ρ}

theorem Inv.resizeBuckets_spec (hinv : Inv cfg t) (hn' : ∃ k, n' = 2^k)
    (hfit : t.numFilledBuckets < n') (allocated : Bool) :
    Inv cfg (resizeBuckets cfg t n' allocated).1 ∧
      (stored (resizeBuckets cfg t n' allocated).1).Perm (stored t) := by
  unfold resizeBuckets
  split_ifs with hmax ha
  · exact ⟨hinv, List.Perm.refl _⟩
  · have hloop := ResizeInv.loop hinv.array (hinv.count ▸ hfit) (List.range t.numBuckets) []
      (fun _ => none) (by simpa using List.nodup_range) (by simp) (ResizeInv.start hn')
    simp only [List.nil_append] at hloop
    refine ⟨⟨hloop.array, ?_⟩, ?_⟩
    · rw [hloop.count, hinv.count, card_filled_eq_length]
    · unfold stored
      rw [collect_eq_flatMap_range Bucket.rows t.buckets]
      exact hloop.rows
  · exact ⟨hinv, List.Perm.refl _⟩

omit [DecidableEq K] in
theorem Inv.numFilledBuckets_le (hinv : Inv cfg t) : t.numFilledBuckets ≤ t.numBuckets :=
  hinv.count ▸ card_filled_le t.buckets t.numBuckets

omit [DecidableEq K] in
theorem Inv.numFilledBuckets_lt_shiftLeft (hinv : Inv cfg t) {shift : Nat} (hshift : 0 < shift) :
    t.numFilledBuckets < t.numBuckets <<< shift := by
  have hpos := hinv.array.pos
  have h2 : 2 ≤ 2 ^ shift := by
    calc 2 = 2 ^ 1 := rfl
      _ ≤ 2 ^ shift := Nat.pow_le_pow_right (by norm_num) hshift
  rw [Nat.shiftLeft_eq]
  calc t.numFilledBuckets ≤ t.numBuckets := hinv.numFilledBuckets_le
    _ < t.numBuckets * 2 := by omega
    _ ≤ t.numBuckets * 2 ^ shift := Nat.mul_le_mul_left _ h2

theorem Inv.checkAndResize_spec (hinv : Inv cfg t) (bucketsToFill : Nat) (allocated : Bool) :
    Inv cfg (checkAndResize cfg t bucketsToFill allocated).1 ∧
      (stored (checkAndResize cfg t bucketsToFill allocated).1).Perm (stored t) := by
  unfold checkAndResize
  generalize checkAndResizeShift t.numFilledBuckets bucketsToFill t.numBuckets 64 0 = shift
  dsimp only
  split_ifs with hshift
  · obtain ⟨k, hk⟩ := hinv.array.pow
    exact hinv.resizeBuckets_spec ⟨k + shift, by rw [hk, Nat.shiftLeft_eq, Nat.pow_add]⟩
      (hinv.numFilledBuckets_lt_shiftLeft hshift) allocated
  · exact ⟨hinv, List.Perm.refl _⟩

end Resize

/-! ## Iterating -/

/-- An iterator at its end, or at a filled bucket and, when it walks the duplicate
nodes, at one of them. -/
def ItOK (t : HashTable ρ) (it : Iterator ρ) : Prop :=
  it.atEnd = true ∨ ∃ (i : Nat) (b : Bucket ρ), it.bucketIdx = (i : Int) ∧ i < t.numBuckets ∧
    t.buckets i = some b ∧
    (it.onDuplicates cfg t = true → it.node ≠ [])

section Iterate

variable {cfg} {t : HashTable ρ}

omit [DecidableEq K] in
theorem nextFilledBucketLoop_eq_some {fuel idx j : Nat}
    (h : nextFilledBucketLoop t fuel idx = some j) :
    idx ≤ j ∧ j < t.numBuckets ∧ (t.buckets j).isSome = true ∧
      ∀ i, idx ≤ i → i < j → t.buckets i = none := by
  induction fuel generalizing idx with
  | zero => cases h
  | succ fuel ih =>
    rw [nextFilledBucketLoop] at h
    split_ifs at h with hlt hsome
    · cases h
      exact ⟨le_rfl, hlt, hsome, fun i h1 h2 => by omega⟩
    · obtain ⟨h1, h2, h3, h4⟩ := ih h
      refine ⟨by omega, h2, h3, fun i hi hij => ?_⟩
      rcases Nat.eq_or_lt_of_le hi with rfl | hi'
      · simpa using hsome
      · exact h4 i hi' hij

omit [DecidableEq K] in
theorem nextFilledBucketLoop_eq_none {fuel idx : Nat} (hfuel : t.numBuckets ≤ idx + fuel)
    (h : nextFilledBucketLoop t fuel idx = none) :
    ∀ i, idx ≤ i → i < t.numBuckets → t.buckets i = none := by
  induction fuel generalizing idx with
  | zero => intro i h1 h2; omega
  | succ fuel ih =>
    rw [nextFilledBucketLoop] at h
    split_ifs at h with hlt hsome
    · intro i hi hin
      rcases Nat.eq_or_lt_of_le hi with rfl | hi'
      · simpa using hsome
      · exact ih (by omega) h i hi' hin
    · intro i hi hin; omega

omit [DecidableEq K] in
theorem Inv.rows_ne_nil (hinv : Inv cfg t) {i : Nat} {b : Bucket ρ} (hb : t.buckets i = some b) :
    b.rows ≠ [] := by
  obtain ⟨k, hk, -⟩ := (hinv.array.bucketOK i b hb).keys
  intro hnil
  simp [keyOf, hnil] at hk

omit [DecidableEq K] in
theorem Inv.onDuplicates_iff (hinv : Inv cfg t) {it : Iterator ρ} {i : Nat} {b : Bucket ρ}
    (hi : it.bucketIdx = (i : Int)) (hb : t.buckets i = some b) :
    it.onDuplicates cfg t = b.hasDuplicates := by
  have hdup := (hinv.array.bucketOK i b hb).dup
  simp only [Iterator.onDuplicates, hi, Int.toNat_natCast, hb, Option.map_some, Option.getD_some]
  cases hd : b.hasDuplicates
  · simp
  · simp [hdup hd]

omit [DecidableEq K] in
theorem Bucket.rows_of_not_hasDuplicates {b : Bucket ρ} (h : b.hasDuplicates = false) :
    ∃ r, b.bucketData = .htdata r ∧ b.rows = [r] := by
  rcases hb : b.bucketData with r | nodes
  · exact ⟨r, rfl, by simp [Bucket.rows, hb]⟩
  · simp [Bucket.hasDuplicates, hb] at h

omit [DecidableEq K] in
theorem Inv.current (hinv : Inv cfg t) {it : Iterator ρ} {i : Nat} {b : Bucket ρ}
    (hi : it.bucketIdx = (i : Int)) (hb : t.buckets i = some b)
    (hnode : it.onDuplicates cfg t = true → it.node ≠ []) :
    ∃ r rest, (if it.onDuplicates cfg t then it.node else held Bucket.rows t.buckets i) = r :: rest ∧
      it.getRow cfg t = some r ∧ (it.onDuplicates cfg t = false → rest = []) := by
  have hod := hinv.onDuplicates_iff hi hb
  cases hd : it.onDuplicates cfg t
  · obtain ⟨r, hdata, hrows⟩ := Bucket.rows_of_not_hasDuplicates (hod ▸ hd)
    refine ⟨r, [], by simp [held_some _ hb, hrows], ?_, fun _ => rfl⟩
    obtain ⟨h, d⟩ := b
    simp only at hdata
    subst hdata
    simp [Iterator.getRow, hd, hi, hb]
  · obtain ⟨r, rest, hnr⟩ := List.exists_cons_of_ne_nil (hnode hd)
    refine ⟨r, rest, by simp [hnr], ?_, fun h => by cases h⟩
    simp [Iterator.getRow, hd, hnr]

omit [DecidableEq K] in
theorem Inv.iterAt_rest (hinv : Inv cfg t) {j : Nat} {b : Bucket ρ} (hj : j < t.numBuckets)
    (hb : t.buckets j = some b) :
    (if (iterAt cfg t j).onDuplicates cfg t then (iterAt cfg t j).node
        else held Bucket.rows t.buckets j) = held Bucket.rows t.buckets j ∧
      ItOK cfg t (iterAt cfg t j) := by
  have hidx : (iterAt cfg t j).bucketIdx = (j : Int) := rfl
  have hod := hinv.onDuplicates_iff hidx hb
  refine ⟨?_, Or.inr ⟨j, b, hidx, hj, hb, fun hd => ?_⟩⟩
  · rw [hod, held_some _ hb]
    cases hd : b.hasDuplicates
    · rfl
    · have hsd := (hinv.array.bucketOK j b hb).dup hd
      rcases hdata : b.bucketData with r | nodes
      · simp [Bucket.hasDuplicates, hdata] at hd
      · simp [iterAt, hsd, hb, Bucket.duplicates, Bucket.rows, hdata]
  · rw [hod] at hd
    have hsd := (hinv.array.bucketOK j b hb).dup hd
    rcases hdata : b.bucketData with r | nodes
    · simp [Bucket.hasDuplicates, hdata] at hd
    · have hne := hinv.rows_ne_nil hb
      simp only [Bucket.rows, hdata] at hne
      simpa [iterAt, hsd, hb, Bucket.duplicates, hdata] using hne

end Iterate

end Impala.HashTable
