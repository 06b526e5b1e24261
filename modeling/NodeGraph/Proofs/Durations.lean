import NodeGraph.Proofs.Leases
import NodeGraph.Proofs.Versions.Findings
import NodeGraph.Settings.Folder

/-!
What workers reckon from the durations of their settings: the ends of their leases and the window
of a snapshot. A duration may be so long that 64 bits do not hold the result.
-/
namespace NodeGraph

theorem Lease.expiresAt_of_acquire {now ttl : ℤ} {owner : ℕ} {name : String} {s : Store}
    {lease : Lease} (h : (acquire now owner name ttl s).1 = some lease) :
    lease.expiresAt = Clock.after now ttl := by
  obtain ⟨rfl, -⟩ := acquire_eq_some h
  rfl

/-- Whoever takes a lease for some time holds it, unless its end is not what it should be. -/
theorem Lease.isHeld_of_acquire {now ttl : ℤ} {owner : ℕ} {name : String} {s : Store}
    {lease : Lease} (h : (acquire now owner name ttl s).1 = some lease)
    (hend : Clock.IsInt64 (now + ttl)) (httl : 0 < ttl) :
    isHeld now lease (acquire now owner name ttl s).2 = true := by
  obtain ⟨-, hrow⟩ := acquire_eq_some h
  refine isHeld_of_running hrow ?_
  rw [expiresAt_of_acquire h, Clock.after_eq_add.mpr hend]
  omega

namespace Settings

variable {settings : Settings} {path : String} {folder : Folder} {now : ℤ}

/-- The first moment of the year 10000. -/
def lastYearEnd : ℤ := 253402300800000

/-- Settings from a file leave every worker some time. -/
theorem lacksTime_of_load (h : load path folder = .ok settings) : settings.lacksTime = false := by
  unfold load at h
  cases hread : folder.read path with
  | error fault =>
    rw [hread] at h
    exact nomatch h
  | ok found =>
    simp only [hread, bind, Except.bind] at h
    cases found with
    | none =>
      obtain rfl := Except.ok.inj h
      rfl
    | some text =>
      cases htext : ofToml text with
      | error fault =>
        simp only [htext] at h
        exact nomatch h
      | ok given =>
        cases hlacks : given.lacksTime with
        | true =>
          simp only [htext, hlacks, if_true] at h
          exact nomatch h
        | false =>
          simp only [htext, hlacks] at h
          obtain rfl := Except.ok.inj h
          exact hlacks

/-- That what workers reckon at a time is as with unbounded integers. -/
structure ExactAt (settings : Settings) (now : ℤ) : Prop where
  passEnd : ∀ owner s lease,
    (Lease.acquire now owner Lease.processing settings.passTtl s).1 = some lease →
      lease.expiresAt = now + 1000 * settings.processor.passTimeout
  snapshotEnd : ∀ owner s lease,
    (Lease.acquire now owner Lease.snapshots settings.snapshotOptions.leaseTtl s).1 = some lease →
      lease.expiresAt = now + 1000 * settings.snapshot.timeout
  threshold : Snapshot.threshold settings.snapshotOptions now =
    now - 1000 * settings.snapshot.interval
  lowerThreshold : Snapshot.lowerThreshold settings.snapshotOptions now =
    now - 1000 * settings.snapshot.interval - 1000 * settings.snapshot.lookback

/-- That signed 64-bit integers hold what workers reckon at a time. -/
structure FitsAt (settings : Settings) (now : ℤ) : Prop where
  passEnd : now + 1000 * settings.processor.passTimeout < 2 ^ 63
  snapshotEnd : now + 1000 * settings.snapshot.timeout < 2 ^ 63
  window : -2 ^ 63 ≤ now - 1000 * settings.snapshot.interval - 1000 * settings.snapshot.lookback

/-- All times up to the year 9999 leave room for some 292 million years. -/
theorem fitsAt_of_le (hnow : 0 ≤ now) (hyear : now < lastYearEnd)
    (hpass : settings.processor.passTimeout ≤ 9223118634553975)
    (hsnapshot : settings.snapshot.timeout ≤ 9223118634553975)
    (hwindow : settings.snapshot.interval + settings.snapshot.lookback ≤ 9223372036854775) :
    settings.FitsAt now := by
  unfold lastYearEnd at hyear
  constructor <;> omega

/-- A lease that is free can be taken, so that its end is what was reckoned. -/
theorem end_exact_iff {name : String} {ttl : ℤ} :
    (∀ owner s lease, (Lease.acquire now owner name ttl s).1 = some lease →
        lease.expiresAt = now + ttl) ↔ Clock.IsInt64 (now + ttl) := by
  rw [← Clock.after_eq_add]
  constructor
  · intro h
    exact h 0 {} ⟨name, 0, Clock.after now ttl⟩ (by rw [Pass.acquire_of_free rfl])
  · intro h owner s lease hlease
    rw [Lease.expiresAt_of_acquire hlease, h]

theorem exactAt_iff (settings : Settings) (now : ℤ) :
    settings.ExactAt now ↔
      Clock.IsInt64 (now + settings.passTtl) ∧
      Clock.IsInt64 (now + settings.snapshotOptions.leaseTtl) ∧
      Clock.IsInt64 (now - settings.snapshotOptions.interval) ∧
      Clock.IsInt64 (now - (settings.snapshotOptions.interval +
        settings.snapshotOptions.lookback)) := by
  have hlower : now - 1000 * (settings.snapshot.interval : ℤ) - 1000 * settings.snapshot.lookback =
      now - (settings.snapshotOptions.interval + settings.snapshotOptions.lookback) :=
    Int.sub_sub _ _ _
  constructor
  · intro h
    refine ⟨end_exact_iff.mp h.passEnd, end_exact_iff.mp h.snapshotEnd,
      Clock.before_eq_sub.mp h.threshold, Clock.before_eq_sub.mp ?_⟩
    rw [← Snapshot.lowerThreshold_eq_before, h.lowerThreshold, hlower]
  · rintro ⟨hpass, hsnapshot, hthreshold, hwindow⟩
    refine ⟨end_exact_iff.mpr hpass, end_exact_iff.mpr hsnapshot,
      Clock.before_eq_sub.mpr hthreshold, ?_⟩
    rw [Snapshot.lowerThreshold_eq_before, Clock.before_eq_sub.mpr hwindow, hlower]

/-- What workers with settings from a file reckon before the year 10000 is exact precisely if 64
bits hold it. Then they hold the leases that they take, and the window of a snapshot lies in the
past, its beginning before its end. -/
theorem exact_iff_fitsAt (hload : load path folder = .ok settings) (hnow : 0 ≤ now)
    (hyear : now < lastYearEnd) :
    (settings.ExactAt now ↔ settings.FitsAt now) ∧
      (settings.FitsAt now →
        (∀ owner s lease,
          (Lease.acquire now owner Lease.processing settings.passTtl s).1 = some lease →
            Lease.isHeld now lease
              (Lease.acquire now owner Lease.processing settings.passTtl s).2 = true) ∧
        (∀ owner s lease,
          (Lease.acquire now owner Lease.snapshots settings.snapshotOptions.leaseTtl s).1 =
              some lease →
            Lease.isHeld now lease (Lease.acquire now owner Lease.snapshots
              settings.snapshotOptions.leaseTtl s).2 = true) ∧
        Snapshot.lowerThreshold settings.snapshotOptions now ≤
          Snapshot.threshold settings.snapshotOptions now ∧
        Snapshot.threshold settings.snapshotOptions now ≤ now) := by
  have htime := lacksTime_of_load hload
  have hpass : settings.passTtl = 1000 * settings.processor.passTimeout := rfl
  have hsnapshot : settings.snapshotOptions.leaseTtl = 1000 * settings.snapshot.timeout := rfl
  have hinterval : settings.snapshotOptions.interval = 1000 * settings.snapshot.interval := rfl
  have hlookback : settings.snapshotOptions.lookback = 1000 * settings.snapshot.lookback := rfl
  simp only [lacksTime, Bool.or_eq_false_iff, decide_eq_false_iff_not] at htime
  unfold lastYearEnd at hyear
  have hexact : settings.ExactAt now ↔ settings.FitsAt now := by
    rw [exactAt_iff]
    unfold Clock.IsInt64
    constructor
    · rintro ⟨hpassEnd, hsnapshotEnd, -, hwindow⟩
      constructor <;> omega
    · rintro ⟨hpassEnd, hsnapshotEnd, hwindow⟩
      refine ⟨?_, ?_, ?_, ?_⟩ <;> omega
  refine ⟨hexact, fun hfits => ?_⟩
  have hreckoned := hexact.mpr hfits
  obtain ⟨hpassEnd, hsnapshotEnd, -, -⟩ := (exactAt_iff settings now).mp hreckoned
  refine ⟨fun owner s lease hlease => Lease.isHeld_of_acquire hlease hpassEnd (by omega),
    fun owner s lease hlease => Lease.isHeld_of_acquire hlease hsnapshotEnd (by omega), ?_, ?_⟩
  · rw [hreckoned.threshold, hreckoned.lowerThreshold]
    omega
  · rw [hreckoned.threshold]
    omega

/-- Without a file the durations are short. -/
theorem exact_default :
    load defaultPath [] = .ok {} ∧ ExactAt {} 1700000000000 ∧
      Snapshot.threshold (snapshotOptions {}) 1700000000000 ≤ 1700000000000 := by
  have hload : load defaultPath [] = .ok {} := rfl
  have hfits : FitsAt {} 1700000000000 :=
    fitsAt_of_le (by decide) (by decide) (by decide) (by decide) (by decide)
  obtain ⟨hexact, hpast⟩ :=
    exact_iff_fitsAt hload (by decide : (0 : ℤ) ≤ 1700000000000) (by decide)
  exact ⟨hload, hexact.mpr hfits, (hpast hfits).2.2.2⟩

/-- The longest durations that a file can tell. -/
def longest : Settings where
  processor := { passTimeout := 9223372036854775807 }
  snapshot := { interval := 9223372036854775807 }

/-- In milliseconds these durations wrap around to less than nothing: a lease has ended when it is
taken, and documents are settled that will be written in a second. -/
theorem longest_wraps :
    load defaultPath [(defaultPath, "[processor]\npass_timeout_secs = 9223372036854775807\n" ++
        "[snapshot]\ninterval_secs = 9223372036854775807\n")] = .ok longest ∧
      (Lease.acquire 1700000000000 0 Lease.processing longest.passTtl {}).1 =
        some ⟨Lease.processing, 0, 1699999999000⟩ ∧
      Lease.isHeld 1700000000000 ⟨Lease.processing, 0, 1699999999000⟩
        (Lease.acquire 1700000000000 0 Lease.processing longest.passTtl {}).2 = false ∧
      Snapshot.threshold longest.snapshotOptions 1700000000000 = 1700000001000 ∧
      ¬ longest.ExactAt 1700000000000 := by
  have hload : load defaultPath [(defaultPath,
      "[processor]\npass_timeout_secs = 9223372036854775807\n" ++
        "[snapshot]\ninterval_secs = 9223372036854775807\n")] = .ok longest := by decide +kernel
  have hthreshold : Snapshot.threshold longest.snapshotOptions 1700000000000 = 1700000001000 := by
    decide
  refine ⟨hload, by decide, by decide, hthreshold, fun hexact => ?_⟩
  have hshould := hexact.threshold
  rw [hthreshold] at hshould
  exact absurd hshould (by decide)

end Settings
end NodeGraph
