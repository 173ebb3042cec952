import ContextProtocol.Proofs.Message.Params
import ContextProtocol.Proofs.Message.Stages

/-!
# Progress in numbers

A report in whole items is checked twice: its counts are, and then the floats that stand for them.
Above `2 ^ 53` these are other numbers, but rounding keeps the order and no positive count becomes
zero, so the second check finds nothing. Of every report the floats are finite and in order, and the
part of the work that is done is a number from 0 to 1.

* `ProgressNotification.Obtained`: the reports that constructors and decoders return.

Results:
* `ProgressNotification.valid_iff_exact`: the rules, as properties of numbers.
* `ProgressNotification.withItems_eq`: what a report in items does, for all counts.
* `ProgressNotification.items_and_fraction`: which counts make a report, and what the floats of every
  report have in common.
-/
namespace ContextProtocol.ProgressNotification

open Decimal

/-! ## The rules -/

/-- A report is valid when its numbers are there and in order. -/
theorem valid_iff_exact {n : ProgressNotification} : Valid n ↔
    n.progress.isFinite = true ∧ 0 ≤ exact n.progress ∧
      ∀ total, n.total = some total →
        total.isFinite = true ∧ 0 < exact total ∧ exact n.progress ≤ exact total := by
  rw [valid_iff, checkProgress_eq_ok_iff, and_assoc]
  refine and_congr_right fun hfinite => and_congr_right fun _ => ?_
  simp only [checkTotal_eq_ok_iff hfinite]

/-! ## Reports in items -/

/-- The checks of the floats accept what the checks of the counts do. -/
theorem withItems_eq (token : ProgressToken) (completed total : UInt64) :
    withItems token completed total =
      if total = 0 then .fail ⟨"total", "must be positive"⟩
      else if total < completed then
        .fail ⟨"completed", toString completed.toNat ++ " exceeds the " ++ toString total.toNat ++
          " items"⟩
      else pure ⟨token, ofInt completed.toNat, some (ofInt total.toNat), none⟩ := by
  unfold withItems
  split
  · rfl
  · split
    · rfl
    · rename_i hzero hle
      have hpos : 0 < total := UInt64.pos_iff_ne_zero.mpr hzero
      have hprogress : checkProgress (ofInt completed.toNat) = .ok () :=
        checkProgress_eq_ok_iff.mpr ⟨isFinite_ofInt completed, exact_ofInt_nonneg completed⟩
      have htotal : checkTotal (ofInt completed.toNat) (ofInt total.toNat) = .ok () :=
        (checkTotal_eq_ok_iff (isFinite_ofInt completed)).mpr ⟨isFinite_ofInt total,
          exact_ofInt_pos hpos, exact_ofInt_mono (UInt64.not_lt.mp hle)⟩
      unfold new
      rw [hprogress, Traced.ok_bind]
      refine build_eq_pure ?_ (valid_iff.mpr ⟨hprogress, fun x hx => Option.some.inj hx ▸ htotal⟩)
      rw [applyAll_cons]
      exact Outcome.bind_eq_ok_iff.mpr ⟨_, Outcome.check_bind_ok_iff.mpr ⟨htotal, rfl⟩, rfl⟩

/-! ## All reports -/

/-- The reports that the constructors return and those that are decoded. -/
inductive Obtained (n : ProgressNotification) : Prop where
  | new (token : ProgressToken) (progress : Float) (steps : List ProgressStep)
      (h : (ProgressNotification.new token progress steps).result = .ok n)
  | start (token : ProgressToken) (h : (ProgressNotification.start token).result = .ok n)
  | complete (token : ProgressToken) (h : (ProgressNotification.complete token).result = .ok n)
  | percentage (token : ProgressToken) (percentage : Float)
      (h : (ProgressNotification.percentage token percentage).result = .ok n)
  | withItems (token : ProgressToken) (completed total : UInt64)
      (h : (ProgressNotification.withItems token completed total).result = .ok n)
  | decoded (h : Envelope.Decoded n)

theorem valid_of_new {n : ProgressNotification} {token : ProgressToken} {progress : Float}
    {steps : List ProgressStep} (h : (new token progress steps).result = .ok n) : Valid n := by
  obtain ⟨u, -, hbuild⟩ := Traced.bind_eq_ok_iff.mp h
  exact validate_of_build hbuild

theorem Obtained.valid {n : ProgressNotification} (h : Obtained n) : Valid n := by
  cases h with
  | new token progress steps h => exact valid_of_new h
  | start token h => exact valid_of_new h
  | complete token h => exact valid_of_new h
  | percentage token percentage h =>
    obtain ⟨u, -, hnew⟩ := Traced.bind_eq_ok_iff.mp h
    exact valid_of_new hnew
  | withItems token completed total h =>
    unfold ProgressNotification.withItems at h
    split at h
    · cases h
    · split at h
      · cases h
      · exact valid_of_new h
  | decoded h => exact h.valid

/-- A report in items is made of every count up to a total that is positive, also where the nearest
floats are other numbers, and what is refused is refused by the counts. Of every report, made or
decoded, the progress is finite and not negative and a total is finite, positive and not below the
progress, so the quotient of the two is a number from 0 to 1. -/
theorem items_and_fraction :
    (∀ (token : ProgressToken) (completed total : UInt64),
      (∀ n, (withItems token completed total).result = .ok n ↔
        (0 < total ∧ completed ≤ total) ∧
          n = ⟨token, ofInt completed.toNat, some (ofInt total.toNat), none⟩) ∧
      ∀ e, (withItems token completed total).result = .error e ↔
        total = 0 ∧ e = ⟨"total", "must be positive"⟩ ∨
        total ≠ 0 ∧ total < completed ∧ e = ⟨"completed", toString completed.toNat ++
          " exceeds the " ++ toString total.toNat ++ " items"⟩) ∧
    ∀ n, Obtained n → n.progress.isFinite = true ∧ 0 ≤ exact n.progress ∧
      ∀ total, n.total = some total → total.isFinite = true ∧ 0 < exact total ∧
        exact n.progress ≤ exact total ∧ n.fraction = some (n.progress / total) ∧
        exact total ≠ 0 ∧ 0 ≤ exact n.progress / exact total ∧
        exact n.progress / exact total ≤ 1 := by
  refine ⟨fun token completed total => ?items, fun n hn => ?numbers⟩
  case items =>
    have hpos : 0 < total ↔ total ≠ 0 := UInt64.pos_iff_ne_zero
    have hle : completed ≤ total ↔ ¬ total < completed := UInt64.not_lt.symm
    rw [withItems_eq, hpos, hle]
    by_cases hzero : total = 0
    · rw [if_pos hzero]
      refine ⟨fun n => iff_of_false nofun fun h => h.1.1 hzero, fun e => ⟨fun h => ?_, ?_⟩⟩
      · exact .inl ⟨hzero, (Except.error.inj h).symm⟩
      · rintro (⟨-, rfl⟩ | ⟨hne, -⟩)
        · rfl
        · exact absurd hzero hne
    · rw [if_neg hzero]
      by_cases hlt : total < completed
      · rw [if_pos hlt]
        refine ⟨fun n => iff_of_false nofun fun h => h.1.2 hlt, fun e => ⟨fun h => ?_, ?_⟩⟩
        · exact .inr ⟨hzero, hlt, (Except.error.inj h).symm⟩
        · rintro (⟨h, -⟩ | ⟨-, -, rfl⟩)
          · exact absurd h hzero
          · rfl
      · rw [if_neg hlt]
        refine ⟨fun n => ⟨fun h => ⟨⟨hzero, hlt⟩, (Except.ok.inj h).symm⟩, ?_⟩,
          fun e => iff_of_false nofun ?_⟩
        · rintro ⟨-, rfl⟩
          rfl
        · rintro (⟨h, -⟩ | ⟨-, h, -⟩)
          · exact hzero h
          · exact hlt h
  case numbers =>
    obtain ⟨hfinite, hnonneg, htotal⟩ := valid_iff_exact.mp hn.valid
    refine ⟨hfinite, hnonneg, fun total ht => ?_⟩
    obtain ⟨hfinite', hpos, hle⟩ := htotal total ht
    refine ⟨hfinite', hpos, hle, ?_, hpos.ne', div_nonneg hnonneg hpos.le, (div_le_one hpos).mpr hle⟩
    rw [fraction, ht]
    rfl

/-- Above `2 ^ 53` two counts may have one nearest float. A report of the greater out of the lesser is
refused, though the floats are in order, and one of the greater out of itself is made. -/
theorem items_and_fraction_rounded :
    let token : ProgressToken := .string "t"
    let least : UInt64 := 9007199254740992
    let next : UInt64 := 9007199254740993
    let report : ProgressNotification :=
      ⟨token, ofInt next.toNat, some (ofInt next.toNat), none⟩
    ofInt next.toNat = ofInt least.toNat ∧
      (withItems token next least).result =
        .error ⟨"completed", "9007199254740993 exceeds the 9007199254740992 items"⟩ ∧
      (withItems token next next).result = .ok report ∧
      exact (ofInt next.toNat) / exact (ofInt next.toNat) ≤ 1 := by
  intro token least next report
  obtain ⟨hitems, hnumbers⟩ := items_and_fraction
  have hmade : (withItems token next next).result = .ok report :=
    ((hitems token next next).1 report).mpr ⟨⟨by decide, by decide⟩, rfl⟩
  obtain ⟨-, -, htotal⟩ := hnumbers report (.withItems token next next hmade)
  obtain ⟨-, -, -, -, -, -, hle⟩ := htotal (ofInt next.toNat) rfl
  refine ⟨by decide +kernel, ?_, hmade, hle⟩
  exact ((hitems token next least).2 _).mpr (.inr ⟨by decide, by decide, by decide +kernel⟩)

end ContextProtocol.ProgressNotification
