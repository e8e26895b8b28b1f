import Mathlib.Data.Int.GCD
import Mathlib.Data.Nat.ModEq
import Mathlib.Data.Nat.Notation

/-! # A counter that wraps and goes up in equal steps

From `e` in steps of `w`, modulo `M`, it meets the residues that agree with `e` modulo the
greatest common divisor of `w` and `M`, and those only.
-/
namespace FalconKV.WrappingSteps
variable {M w : ℕ}

theorem modEq_of_add_mul_mod (e k : ℕ) : (e + k * w) % M ≡ e [MOD Nat.gcd w M] := by
  have hmod : (e + k * w) % M ≡ e + k * w [MOD Nat.gcd w M] :=
    (Nat.mod_modEq _ M).of_dvd (Nat.gcd_dvd_right w M)
  have hw : k * w ≡ 0 [MOD Nat.gcd w M] :=
    Nat.modEq_zero_iff_dvd.mpr (Dvd.dvd.mul_left (Nat.gcd_dvd_left w M) k)
  exact hmod.trans (by simpa using hw.add_left e)

/-- The multiples of the divisor are the multiples of `w`. -/
theorem exists_mul_modEq {d : ℕ} (hM : 0 < M) (hd : Nat.gcd w M ∣ d) : ∃ k, k * w ≡ d [MOD M] := by
  obtain ⟨q, rfl⟩ := hd
  have hle : Nat.gcd w M ≤ M := Nat.gcd_le_right w hM
  rcases Nat.lt_or_eq_of_le hle with hlt | heq
  · obtain ⟨m, _, hm⟩ := Nat.exists_mul_mod_eq_gcd hlt
    have hone : w * m ≡ Nat.gcd w M [MOD M] := by
      rw [← hm]
      exact (Nat.mod_modEq _ M).symm
    refine ⟨m * q, ?_⟩
    rw [Nat.mul_comm, ← Nat.mul_assoc]
    exact hone.mul_right q
  · refine ⟨0, ?_⟩
    rw [heq, Nat.zero_mul]
    exact (Nat.modEq_zero_iff_dvd.mpr ⟨q, rfl⟩).symm

theorem exists_add_mul_mod_eq {e c : ℕ} (hc : c < M) (hec : c ≡ e [MOD Nat.gcd w M]) :
    ∃ k, (e + k * w) % M = c := by
  have hM : 0 < M := Nat.zero_lt_of_lt hc
  have he : e ≤ c + e * M := Nat.le_trans (Nat.le_mul_of_pos_right e hM) (Nat.le_add_left _ _)
  have hdvd : Nat.gcd w M ∣ c + e * M - e := by
    apply (Nat.modEq_iff_dvd' he).mp
    have hzero : e * M ≡ 0 [MOD Nat.gcd w M] :=
      Nat.modEq_zero_iff_dvd.mpr (Dvd.dvd.mul_left (Nat.gcd_dvd_right w M) e)
    exact hec.symm.trans (by simpa using (hzero.add_left c).symm)
  obtain ⟨k, hk⟩ := exists_mul_modEq hM hdvd
  refine ⟨k, ?_⟩
  have hsum : e + k * w ≡ c + e * M [MOD M] := by
    have h := hk.add_left e
    rwa [Nat.add_sub_cancel' he] at h
  calc (e + k * w) % M = (c + e * M) % M := hsum
    _ = c := by rw [Nat.add_mul_mod_self_right, Nat.mod_eq_of_lt hc]

/-- What the counter passes: everything below the last of its residues. -/
theorem exists_lt_add_mul_mod_iff (hM : 0 < M) (e t : ℕ) :
    (∃ k, t < (e + k * w) % M) ↔ t < M - Nat.gcd w M + e % Nat.gcd w M := by
  have hg : 0 < Nat.gcd w M := Nat.gcd_pos_of_pos_right w hM
  have hlast : e % Nat.gcd w M < Nat.gcd w M := Nat.mod_lt e hg
  have hle : Nat.gcd w M ≤ M := Nat.gcd_le_right w hM
  constructor
  · rintro ⟨k, hk⟩
    have hmod : (e + k * w) % M % Nat.gcd w M = e % Nat.gcd w M := modEq_of_add_mul_mod e k
    have hlt : (e + k * w) % M < M := Nat.mod_lt _ hM
    obtain ⟨q, hq⟩ := Nat.gcd_dvd_right w M
    -- as many whole divisors lie below the residue as fit under `M`, less one
    have hdiv : (e + k * w) % M / Nat.gcd w M + 1 ≤ q := by
      apply Nat.div_lt_of_lt_mul
      rwa [← hq]
    have hmul := Nat.mul_le_mul_left (Nat.gcd w M) hdiv
    rw [← hq, Nat.mul_add, Nat.mul_one] at hmul
    have hsplit := Nat.div_add_mod ((e + k * w) % M) (Nat.gcd w M)
    omega
  · intro ht
    have hc : M - Nat.gcd w M + e % Nat.gcd w M < M := by omega
    have hdvd : Nat.gcd w M ∣ M - Nat.gcd w M := Nat.dvd_sub (Nat.gcd_dvd_right w M) dvd_rfl
    have hec : M - Nat.gcd w M + e % Nat.gcd w M ≡ e [MOD Nat.gcd w M] := by
      have hzero : M - Nat.gcd w M ≡ 0 [MOD Nat.gcd w M] := Nat.modEq_zero_iff_dvd.mpr hdvd
      simpa using hzero.add (Nat.mod_modEq e (Nat.gcd w M))
    obtain ⟨k, hk⟩ := exists_add_mul_mod_eq hc hec
    exact ⟨k,by rwa [hk]⟩

end FalconKV.WrappingSteps
