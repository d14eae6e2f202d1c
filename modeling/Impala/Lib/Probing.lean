import Mathlib.Data.Nat.Prime.Basic
import Mathlib.Data.Fintype.Fin
import Mathlib.Data.Nat.ModEq
import Mathlib.Tactic.Ring

/-!
Probe sequences of open addressing over `n` slots. Step `s` of a probe from `home`
looks at slot `(home + offset s) % n`; the offset is `s` for linear probing and the
triangular number `s (s + 1) / 2` for quadratic probing, whose jumps grow by one a
step. When `n` is a power of two both sequences visit every slot exactly once in
their first `n` steps.
-/

set_option autoImplicit false

namespace Impala.Probing

def tri : Nat → Nat
  | 0 => 0
  | s + 1 => tri s + (s + 1)

theorem two_mul_tri (s : Nat) : 2 * tri s = s * (s + 1) := by
  induction s with
  | zero => rfl
  | succ s ih =>
    rw [tri, Nat.mul_add, ih]
    ring

def offset (quadratic : Bool) (s : Nat) : Nat := if quadratic then tri s else s

def slot (quadratic : Bool) (n home s : Nat) : Nat := (home + offset quadratic s) % n

theorem slot_zero (quadratic : Bool) (n home : Nat) : slot quadratic n home 0 = home % n := by
  cases quadratic <;> rfl

theorem slot_succ (quadratic : Bool) (n home s : Nat) :
    slot quadratic n home (s + 1) =
      (slot quadratic n home s + (if quadratic then s + 1 else 1)) % n := by
  unfold slot offset
  cases quadratic <;> simp only [Bool.false_eq_true, if_true, if_false, tri] <;>
    rw [Nat.mod_add_mod, Nat.add_assoc]

theorem slot_lt (quadratic : Bool) {n : Nat} (hn : 0 < n) (home s : Nat) :
    slot quadratic n home s < n :=
  Nat.mod_lt _ hn

theorem two_pow_le_of_dvd_mul {k a b : Nat} (ha : 0 < a) (hb : 0 < b) (hodd : Odd (a + b))
    (h : 2^(k+1) ∣ a * b) : 2^(k+1) ≤ a ∨ 2^(k+1) ≤ b := by
  rcases Nat.even_or_odd a with hae | hao
  · have hbo : Odd b := by
      rcases hodd with ⟨m, hm⟩; rcases hae with ⟨r, hr⟩; exact ⟨m - r, by omega⟩
    have hcop : Nat.Coprime (2^(k+1)) b :=
      Nat.Coprime.pow_left (k+1) (Nat.coprime_two_left.2 hbo)
    exact Or.inl (Nat.le_of_dvd ha (hcop.dvd_of_dvd_mul_right h))
  · have hcop : Nat.Coprime (2^(k+1)) a :=
      Nat.Coprime.pow_left (k+1) (Nat.coprime_two_left.2 hao)
    exact Or.inr (Nat.le_of_dvd hb (hcop.dvd_of_dvd_mul_left h))

theorem tri_mod_injective_of_lt {k s t : Nat} (hst : s < t) (ht : t < 2^k)
    (h : tri s % 2^k = tri t % 2^k) : False := by
  obtain ⟨d, rfl⟩ : ∃ d, t = s + d := ⟨t - s, by omega⟩
  have hdiff : 2 * (tri (s + d) - tri s) = d * (2 * s + d + 1) := by
    have h1 := two_mul_tri s
    have h2 := two_mul_tri (s + d)
    have : (s + d) * (s + d + 1) = s * (s + 1) + d * (2 * s + d + 1) := by ring
    omega
  have hdvd : 2^k ∣ tri (s + d) - tri s := Nat.dvd_of_mod_eq_zero (Nat.sub_mod_eq_zero_of_mod_eq h.symm)
  have hdvd2 : 2^(k+1) ∣ d * (2 * s + d + 1) := by
    rw [← hdiff, Nat.pow_succ, Nat.mul_comm _ 2]
    exact Nat.mul_dvd_mul_left 2 hdvd
  have hodd : Odd (d + (2 * s + d + 1)) := ⟨s + d, by ring⟩
  have hpow : 2^(k+1) = 2 * 2^k := by rw [Nat.pow_succ, Nat.mul_comm]
  rcases two_pow_le_of_dvd_mul (by omega) (by omega) hodd hdvd2 with hd | hd <;> omega

theorem tri_mod_injective {k s t : Nat} (hs : s < 2^k) (ht : t < 2^k)
    (h : tri s % 2^k = tri t % 2^k) : s = t := by
  rcases Nat.lt_trichotomy s t with hlt | heq | hgt
  · exact (tri_mod_injective_of_lt hlt ht h).elim
  · exact heq
  · exact (tri_mod_injective_of_lt hgt hs h.symm).elim

section PowerOfTwo

variable (quadratic : Bool) {k : Nat} (home : Nat)

theorem slot_injective {s t : Nat} (hs : s < 2^k) (ht : t < 2^k)
    (h : slot quadratic (2^k) home s = slot quadratic (2^k) home t) : s = t := by
  have hoff : offset quadratic s % 2^k = offset quadratic t % 2^k :=
    Nat.ModEq.add_left_cancel' home h
  cases quadratic with
  | false =>
    simpa [offset, Nat.mod_eq_of_lt hs, Nat.mod_eq_of_lt ht] using hoff
  | true => exact tri_mod_injective hs ht hoff

theorem slot_surjective {j : Nat} (hj : j < 2^k) :
    ∃ s < 2^k, slot quadratic (2^k) home s = j := by
  have hn : 0 < 2^k := Nat.two_pow_pos k
  let f : Fin (2^k) → Fin (2^k) := fun s => ⟨slot quadratic (2^k) home s, slot_lt _ hn _ _⟩
  have hinj : Function.Injective f := fun s t h =>
    Fin.ext (slot_injective quadratic home s.isLt t.isLt (congrArg Fin.val h))
  obtain ⟨s, hs⟩ := Finite.surjective_of_injective hinj ⟨j, hj⟩
  exact ⟨s, s.isLt, congrArg Fin.val hs⟩

end PowerOfTwo

end Impala.Probing
