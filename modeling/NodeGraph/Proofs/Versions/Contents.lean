import NodeGraph.Proofs.Json.Alike
import NodeGraph.Proofs.Versions.Locality

/-!
The hash of a payload identifies its content: payloads have one hash if they decode to values that
are alike, however their texts are written, and different ones otherwise.
-/
namespace NodeGraph

/-! ### From a text to its hash -/

private theorem toList_loop_eq (bytes : ByteArray) (i : ℕ) (acc : List UInt8) :
    ByteArray.toList.loop bytes i acc = acc.reverse ++ bytes.data.toList.drop i := by
  fun_induction ByteArray.toList.loop bytes i acc with
  | case1 i acc h ih =>
    have hi : i < bytes.data.toList.length := by simpa using h
    have hget : bytes.get! i = bytes.data.toList[i] := by
      show bytes.data[i]! = _
      rw [getElem!_pos bytes.data i (by simpa using hi), Array.getElem_toList]
    rw [ih, List.drop_eq_getElem_cons hi, List.reverse_cons, hget, List.append_assoc,
      List.singleton_append]
  | case2 i acc h =>
    have hi : bytes.data.toList.length ≤ i := by simpa using h
    rw [List.drop_eq_nil_of_le hi, List.append_nil]

/-- Texts with the same bytes are the same. -/
theorem utf8_injective : Function.Injective fun text : String => text.toUTF8.toList := by
  intro text text' h
  have hbytes (text : String) : text.toUTF8.toList = text.toUTF8.data.toList := by
    unfold ByteArray.toList
    rw [toList_loop_eq]
    rfl
  dsimp only at h
  rw [hbytes, hbytes] at h
  exact String.toByteArray_inj.mp (ByteArray.ext (Array.toList_inj.mp h))

namespace Hex

theorem digit?_digitChar : ∀ n < 16, digit? (Nat.digitChar n) = some n := by
  decide

theorem decode_encode (bytes : List UInt8) : decode (encode bytes) = some bytes := by
  unfold decode encode
  rw [String.toList_ofList]
  induction bytes with
  | nil => rfl
  | cons b bytes ih =>
    have hb := b.toNat_lt
    have hbyte : b.toNat / 16 * 16 + b.toNat % 16 = b.toNat := by omega
    rw [List.flatMap_cons]
    simp only [List.cons_append, List.nil_append, decodeChars,
      digit?_digitChar (b.toNat / 16) (by omega), digit?_digitChar (b.toNat % 16) (by omega), ih]
    show some (UInt8.ofNat (b.toNat / 16 * 16 + b.toNat % 16) :: bytes) = _
    rw [hbyte, UInt8.ofNat_toNat]

theorem encode_injective : Function.Injective encode := by
  intro bytes bytes' h
  have hdecoded := decode_encode bytes
  rw [h, decode_encode] at hdecoded
  exact (Option.some.inj hdecoded).symm

end Hex

/-- Two messages that have one digest. -/
def Sha256.Collide (message message' : List UInt8) : Prop :=
  message ≠ message' ∧ digest message = digest message'

/-- The bytes that are hashed for a value. -/
def hashedBytes (v : Json) : List UInt8 :=
  (canonicalText (some v)).toUTF8.toList

open Json

theorem hashedBytes_eq_iff {v w : Json} (hv : v.Fits) (hw : w.Fits) :
    hashedBytes v = hashedBytes w ↔ Alike v w := by
  have htexts : canonicalText (some v) = canonicalText (some w) ↔ v.canonical = w.canonical :=
    compact_injOn.eq_iff (canonical_fits hv) (canonical_fits hw)
  rw [alike_iff, ← htexts]
  exact utf8_injective.eq_iff

theorem fingerprint_of_alike {v w : Json} (h : Alike v w) :
    fingerprint (some v) = fingerprint (some w) := by
  have htext : canonicalText (some v) = canonicalText (some w) :=
    congrArg compact (alike_iff.mp h)
  unfold fingerprint
  rw [htext]

/-- Values have one hash if they are alike, and otherwise only if SHA-256 takes them for each
other. -/
theorem fingerprint_eq_iff {v w : Json} (hv : v.Fits) (hw : w.Fits)
    (hdistinct : ¬ Sha256.Collide (hashedBytes v) (hashedBytes w)) :
    fingerprint (some v) = fingerprint (some w) ↔ Alike v w := by
  refine ⟨fun h => ?_, fingerprint_of_alike⟩
  by_contra hne
  have hbytes : hashedBytes v ≠ hashedBytes w := fun heq => hne ((hashedBytes_eq_iff hv hw).mp heq)
  exact hdistinct ⟨hbytes, Hex.encode_injective h⟩

/-! ### Payloads -/

/-- The value that a payload holds, with the fields of its objects as they are written; null, if
there is no payload. -/
def content? : Option String → Option Json
  | none => some .null
  | some text => readTree maxDepth text

/-- A payload holds the value of which it is a text. -/
theorem content_eq_some_iff {text : String} {v : Json} :
    content? (some text) = some v ↔ Spells v text.toList ∧ v.depth ≤ maxDepth :=
  readTree_eq_some_iff

namespace Snapshot

theorem fits_of_content {payload : Option String} {v : Json} (h : content? payload = some v) :
    v.Fits := by
  cases payload with
  | none =>
    obtain rfl := Option.some.inj h
    trivial
  | some text => exact (fits_of_readTree h).1

/-- What a payload holds is known by its compact text. -/
theorem content_of_compact {payload : Option String} {v : Json} (hv : v.Fits)
    (h : (content? payload).map compact = some v.compact) : content? payload = some v := by
  obtain ⟨u, hu, htext⟩ := Option.map_eq_some_iff.mp h
  rw [hu, compact_injOn (fits_of_content hu) hv htext]

/-- A document is hashed by the value that its payload holds. -/
theorem rowFingerprint_of_content {row : DocumentRow} {v : Json} (h : content? row.json = some v) :
    rowFingerprint row = some (fingerprint (some v)) := by
  unfold rowFingerprint
  cases hjson : row.json with
  | none =>
    rw [hjson] at h
    obtain rfl := Option.some.inj h
    rfl
  | some text =>
    rw [hjson] at h
    have htree : readTree maxDepth text = some v := h
    have hdecoded : decodePayload (some text) = .ok (some v.canonical) := by
      simp [decodePayload, parse, htree]
    rw [hdecoded]
    exact congrArg some (fingerprint_of_alike (alike_iff.mpr (canonical_canonical v)))

variable {s : Store} {options : Options} {now : ℤ} {row : DocumentRow}

/-- What a whole pass makes of a document that is due. -/
theorem run_of_due (hids : s.documents.Numbered (·.id)) (hrow : row ∈ s.documents.rows)
    {latest : Version} (hlatest : latest? s.versions.rows row.id = some latest)
    (hdue : isDue options now row latest = true) {env : Env} (owner : ℕ)
    (hfree : Lease.isTaken env.now Lease.snapshots s = false) :
    ∃ stats t n, run env owner options now s = .ok (.completed stats) t ∧
      t.versionsOf row.id = s.versionsOf row.id ++
        ((newFingerprint row latest).map fun hash => copy now row hash n).toList := by
  obtain ⟨stats, t, hrun, hwrote, -⟩ := run_of_free hids owner options now hfree
  obtain ⟨n, -, hversions⟩ := hwrote.found row hrow
  rw [hlatest] at hversions
  simp only [finding, hdue, if_true] at hversions
  exact ⟨stats, t, n, hrun, hversions⟩

/-- Of two payloads that decode, whatever the rows are that hold them: unless SHA-256 takes their
contents for each other, they have one hash if and only if they hold the same value but for the
order of keys. Any other text of the value has the hash as well, with its blanks, its escapes and
its keys as they may be, and a missing payload has that of null. So a pass over a store whose latest
version of a due document was taken of the one payload writes a version of the other one if and only
if the values differ. -/
theorem content_identified {a b : DocumentRow} {v w : Json} (ha : content? a.json = some v)
    (hb : content? b.json = some w)
    (hdistinct : ¬ Sha256.Collide (hashedBytes v) (hashedBytes w)) :
    (∃ hash hash', rowFingerprint a = some hash ∧ rowFingerprint b = some hash' ∧
        (hash = hash' ↔ Alike v w)) ∧
      (∀ u text, Alike v u → u.depth ≤ maxDepth → Spells u text.toList →
        rowFingerprint { a with json := some text } = rowFingerprint a) ∧
      rowFingerprint { a with json := none } = rowFingerprint { a with json := some "null" } ∧
      ∀ (s : Store) (latest : Version) (env : Env) (owner : ℕ) (options : Options) (now : ℤ),
        s.documents.Numbered (·.id) → b ∈ s.documents.rows →
        latest? s.versions.rows b.id = some latest → rowFingerprint a = some latest.fingerprint →
        isDue options now b latest = true →
        Lease.isTaken env.now Lease.snapshots s = false →
        ∃ stats t, run env owner options now s = .ok (.completed stats) t ∧
          (Alike v w → t.versionsOf b.id = s.versionsOf b.id) ∧
          (¬ Alike v w → ∃ hash n, rowFingerprint b = some hash ∧
            t.versionsOf b.id = s.versionsOf b.id ++ [copy now b hash n]) := by
  have hhash := rowFingerprint_of_content ha
  have hhash' := rowFingerprint_of_content hb
  have hiff := fingerprint_eq_iff (fits_of_content ha) (fits_of_content hb) hdistinct
  refine ⟨⟨_, _, hhash, hhash', hiff⟩, ?_, ?_, ?_⟩
  · intro u text halike hdepth hspells
    have hu : content? (some text) = some u := content_eq_some_iff.mpr ⟨hspells, hdepth⟩
    have hwritten : rowFingerprint { a with json := some text } = some (fingerprint (some u)) :=
      rowFingerprint_of_content hu
    rw [hwritten, hhash, fingerprint_of_alike halike]
  · rfl
  · intro s latest env owner options now hids hrow hlatest htaken hdue hfree
    obtain ⟨stats, t, n, hrun, hversions⟩ := run_of_due hids hrow hlatest hdue owner hfree
    obtain hsame : fingerprint (some v) = latest.fingerprint :=
      Option.some.inj (hhash.symm.trans htaken)
    refine ⟨stats, t, hrun, fun halike => ?_, fun hne => ?_⟩
    · have hnone : newFingerprint b latest = none := by
        unfold newFingerprint
        rw [hhash', ← hsame, hiff.mpr halike]
        simp
      rw [hversions, hnone]
      exact List.append_nil _
    · have hnew : newFingerprint b latest = some (fingerprint (some w)) := by
        unfold newFingerprint
        rw [hhash', ← hsame]
        have hdiffer : fingerprint (some w) ≠ fingerprint (some v) := fun h => hne (hiff.mp h.symm)
        simp [hdiffer]
      exact ⟨_, n, hhash', by rw [hversions, hnew]; rfl⟩

/-- The value of a document as it was when its only version was taken. -/
def takenValue : Json :=
  .obj [("b", .int 1), ("a", .arr [.str "A", .float ⟨0x3ff8000000000000⟩])]

/-- The same value, in another order and with a key that is repeated. -/
def reorderedValue : Json :=
  .obj [("a", .arr [.str "A", .float ⟨0x3ff8000000000000⟩]), ("b", .int 0), ("b", .int 1)]

/-- Another value: a double stands in the place of an integer. -/
def retypedValue : Json :=
  .obj [("b", .float ⟨0x3ff0000000000000⟩), ("a", .arr [.str "A", .float ⟨0x3ff8000000000000⟩])]

def taken : DocumentRow :=
  ⟨1, "n", "EDITOR", [], some "\x7b\"b\":1,\"a\":[\"A\",1.5]\x7d", 100, 200⟩

def respelled : DocumentRow :=
  { taken with
    json := some " \x7b\"a\" : [\"\\u0041\", 15e-1],\n\"b\":0, \"\\u0062\":1 \x7d"
    updatedAt := 6000 }

def retyped : DocumentRow :=
  { taken with json := some "\x7b\"b\":1.0,\"a\":[\"A\",1.5]\x7d", updatedAt := 6000 }

/-- A store with a document as it is now and the version of it as it was. -/
def versionTaken (row : DocumentRow) : Store where
  documents := { rows := [row], lastId := 1 }
  versions :=
    { rows := [⟨1, "n", "EDITOR", 1, (rowFingerprint taken).getD "", [], 200⟩], lastId := 1 }

theorem content_identified_retyped :
    let options : Options := { interval := 1000, lookback := 5000, leaseTtl := 60000 }
    let env : Env := { clock := 10000, tokens := String.length }
    rowFingerprint taken = rowFingerprint respelled ∧
      rowFingerprint { taken with json := respelled.json } = rowFingerprint taken ∧
      rowFingerprint taken ≠ rowFingerprint retyped ∧
      (∃ stats t, run env 1 options 10000 (versionTaken respelled) = .ok (.completed stats) t ∧
        t.versionsOf 1 = (versionTaken respelled).versionsOf 1) ∧
      ∃ stats t hash n, run env 1 options 10000 (versionTaken retyped) = .ok (.completed stats) t ∧
        rowFingerprint retyped = some hash ∧
        t.versionsOf 1 = (versionTaken retyped).versionsOf 1 ++ [copy 10000 retyped hash n] := by
  intro options env
  have hone : (⟨0x3ff0000000000000⟩ : Binary64).IsFinite := by decide
  have hhalves : (⟨0x3ff8000000000000⟩ : Binary64).IsFinite := by decide
  have htaken : content? taken.json = some takenValue :=
    content_of_compact (by simp [takenValue, Fits, FitsFields, FitsItems, IsNumber, hhalves])
      (by decide +kernel)
  have hrespelled : content? respelled.json = some reorderedValue :=
    content_of_compact (by simp [reorderedValue, Fits, FitsFields, FitsItems, IsNumber, hhalves])
      (by decide +kernel)
  have hretyped : content? retyped.json = some retypedValue :=
    content_of_compact (by simp [retypedValue, Fits, FitsFields, FitsItems, IsNumber, hone, hhalves])
      (by decide +kernel)
  have hbytes : hashedBytes takenValue = hashedBytes reorderedValue := by decide +kernel
  have hsame : Alike takenValue reorderedValue :=
    (hashedBytes_eq_iff (fits_of_content htaken) (fits_of_content hrespelled)).mp hbytes
  have hdigests :
      Sha256.digest (hashedBytes takenValue) ≠ Sha256.digest (hashedBytes retypedValue) := by
    decide +kernel
  have hother : ¬ Alike takenValue retypedValue := fun halike => hdigests (congrArg Sha256.digest
    ((hashedBytes_eq_iff (fits_of_content htaken) (fits_of_content hretyped)).mpr halike))
  obtain ⟨⟨hash, hash', hhash, hhash', hiff⟩, htexts, -, hpass⟩ :=
    content_identified htaken hrespelled fun h => h.1 hbytes
  obtain ⟨⟨kept, other, hkept, hchanged, hdiffer⟩, -, -, hpass'⟩ :=
    content_identified htaken hretyped fun h => hdigests h.2
  obtain ⟨stats, t, hrun, hunchanged, -⟩ := hpass (versionTaken respelled) _ env 1 options 10000
    ⟨by decide, by decide⟩ List.mem_cons_self rfl (by decide +kernel) (by decide) (by decide)
  obtain ⟨stats', u, hrun', -, hcopied⟩ := hpass' (versionTaken retyped) _ env 1 options 10000
    ⟨by decide, by decide⟩ List.mem_cons_self rfl (by decide +kernel) (by decide) (by decide)
  obtain ⟨hash'', n, hnew, hversions⟩ := hcopied hother
  have hspells := content_eq_some_iff.mp hrespelled
  refine ⟨?_, htexts _ _ hsame hspells.2 hspells.1, ?_, ⟨stats, t, hrun, hunchanged hsame⟩, stats',
    u, hash'', n, hrun', hnew, hversions⟩
  · rw [hhash, hhash', hiff.mpr hsame]
  · rw [hkept, hchanged]
    exact fun h => hother (hdiffer.mp (Option.some.inj h))

end Snapshot
end NodeGraph
