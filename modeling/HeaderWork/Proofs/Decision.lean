import HeaderWork.Proofs.Canonical
import HeaderWork.Proofs.Digits

/-!
# What an inspection decides

An inspection is a check of some spans followed by a decision that looks at single places of the
buffer only.

* `Bytes.version`, `Bytes.record` — the fields that the decision rests on, by their places;
  `Bytes.toNat_version` — the version as a sum of its four bytes.
* `Record.origin`, `Record.place` — the place in the header of each byte of the record, and back.
* `decision` — the finding as a function of those places; `decision_cases` — what leads to each.
* `examinedSpans`, `examine_eq` — an inspection is the decision, granted that the spans fit.
* `Complete`, `examine_eq_ok_iff` — when an inspection succeeds, and with which finding.
* `record_eq_record_iff` — the record covers exactly the chain-specific places.
* `Bindable`, `Bound` — a header that lacks at most the digest of its record, and one that embeds it;
  `examine_eq_verified_iff` — the latter are the verified ones.
-/

namespace HeaderWork

namespace Bytes

/-! ## Fields by their places -/

/-- The version of the solution: the little-endian word of the four bytes from 143 on. -/
def version (b : Bytes) : UInt32 := LittleEndian.toUInt32 (b.window 4 143)

/-- **The version is the sum of its bytes**, byte `k` counting `256 ^ k` times. -/
theorem toNat_version (b : Bytes) :
    b.version.toNat = (b.byteAt 143).toNat + 256 * (b.byteAt 144).toNat +
      65536 * (b.byteAt 145).toNat + 16777216 * (b.byteAt 146).toNat := by
  have hbytes : (b.window 4 143).toList =
      [b.byteAt 143, b.byteAt 144, b.byteAt 145, b.byteAt 146] := rfl
  rw [version, LittleEndian.toNat_toUInt32, hbytes]
  simp only [LittleEndian.value]
  omega

theorem version_congr {a b : Bytes} (h : ∀ i, 143 ≤ i → i < 147 → a.byteAt i = b.byteAt i) :
    a.version = b.version := by
  rw [← UInt32.toNat_inj, toNat_version, toNat_version, h 143 (by decide) (by decide),
    h 144 (by decide) (by decide), h 145 (by decide) (by decide), h 146 (by decide) (by decide)]

/-- The record of the chain-specific fields: three hashes, nonce, target and both roots. -/
def record (b : Bytes) : Record :=
  b.window 96 4 ++ b.window 32 108 ++ b.window 4 104 ++ b.window 64 151

/-- The head of the solution. -/
def solution (b : Bytes) : Solution where
  version := b.version
  descriptor := b.byteAt 147
  chains := b.byteAt 148
  extraSpace := LittleEndian.toUInt16 (b.window 2 149)
  prevRoot := b.window 32 151
  blockRoot := b.window 32 183

/-- The first chain entry. -/
def firstEntry (b : Bytes) : ChainEntry where
  chain := b.window 20 215
  digest := b.window 32 235

theorem toList_window_add (b : Bytes) (m n start : Nat) :
    (b.window (m + n) start).toList =
      (b.window m start).toList ++ (b.window n (start + m)).toList := by
  rw [← Vector.toList_append, Vector.toList_inj]
  apply Vector.ext fun i hi => ?_
  rw [getElem_window, Vector.getElem_append]
  split
  · rw [getElem_window]
  · rw [getElem_window]
    congr 1
    omega

theorem toList_record (b : Bytes) :
    b.record.toList = (b.window 96 4).toList ++ (b.window 32 108).toList ++
      (b.window 4 104).toList ++ (b.window 64 151).toList := by
  show (b.window 96 4 ++ b.window 32 108 ++ b.window 4 104 ++ b.window 64 151).toList = _
  rw [Vector.toList_append, Vector.toList_append, Vector.toList_append]

theorem assemble_eq_record (b : Bytes) :
    Record.assemble (b.window 32 4) (b.window 32 36) (b.window 32 68) (b.window 32 108)
      (b.window 4 104) (b.window 32 151) (b.window 32 183) = b.record := by
  rw [← Vector.toList_inj, toList_record, Record.assemble, Octets.toList_ofBytes,
    toList_window_add b 64 32 4, toList_window_add b 32 32 4, toList_window_add b 32 32 151]
  simp only [List.append_assoc]

end Bytes

/-! ## Bytes of the record -/

namespace Record

/-- The place in the header that byte `j` of the record stems from. -/
def origin (j : Nat) : Nat :=
  if j < 96 then j + 4 else if j < 128 then j + 12 else if j < 132 then j - 24 else j + 19

/-- Where the record keeps the byte from the chain-specific place `i`. -/
def place (i : Nat) : Nat :=
  if i < 100 then i - 4 else if i < 108 then i + 24 else if i < 140 then i - 12 else i - 19

theorem chainSpecific_origin {j : Nat} (h : j < 196) : ChainSpecific (origin j) := by
  unfold ChainSpecific origin
  grind

theorem place_lt {i : Nat} (h : ChainSpecific i) : place i < 196 := by
  unfold ChainSpecific at h
  unfold place
  grind

theorem place_origin (j : Nat) : place (origin j) = j := by
  unfold place origin
  grind

theorem origin_place {i : Nat} (h : ChainSpecific i) : origin (place i) = i := by
  unfold ChainSpecific at h
  unfold place origin
  grind

end Record

namespace Bytes

theorem getElem_record (b : Bytes) {j : Nat} (h : j < 196) :
    b.record[j] = b.byteAt (Record.origin j) := by
  show (b.window 96 4 ++ b.window 32 108 ++ b.window 4 104 ++ b.window 64 151)[j] = _
  simp only [Vector.getElem_append, getElem_window]
  unfold Record.origin
  grind

/-- **The record covers exactly the chain-specific places.** -/
theorem record_eq_record_iff {a b : Bytes} :
    a.record = b.record ↔ ∀ i, ChainSpecific i → a.byteAt i = b.byteAt i := by
  constructor
  · intro h i hi
    have hj := Record.place_lt hi
    rw [← Record.origin_place hi, ← getElem_record a hj, ← getElem_record b hj, h]
  · intro h
    apply Vector.ext
    intro j hj
    rw [getElem_record, getElem_record]
    exact h _ (Record.chainSpecific_origin hj)

end Bytes

/-! ## Readers -/

theorem readVersion_eq (b : Bytes) : readVersion b = b.granted [⟨143, 4⟩] b.version :=
  b.readUInt32_eq 143

theorem readChains_eq (b : Bytes) : readChains b = b.granted [⟨148, 1⟩] (b.byteAt 148) :=
  b.readByte_eq 148

theorem Solution.read_eq (b : Bytes) :
    Solution.read b =
      b.granted [⟨143, 4⟩, ⟨147, 1⟩, ⟨148, 1⟩, ⟨149, 2⟩, ⟨151, 32⟩, ⟨183, 32⟩] b.solution := by
  simp only [Solution.read, readVersion_eq, readChains_eq, Bytes.readByte_eq, Bytes.readUInt16_eq,
    Bytes.readOctets_eq]
  open Bytes in
  exact granted_bind (granted_bind (granted_bind (granted_bind (granted_bind (granted_bind rfl)))))

theorem ChainEntry.readFirst_eq (b : Bytes) :
    ChainEntry.readFirst b = b.granted [⟨215, 20⟩, ⟨235, 32⟩] b.firstEntry := by
  simp only [ChainEntry.readFirst, Bytes.readOctets_eq]
  exact Bytes.granted_bind (Bytes.granted_bind rfl)

theorem Record.read_eq (b : Bytes) (s : Solution) :
    Record.read b s =
      b.granted [⟨4, 32⟩, ⟨36, 32⟩, ⟨68, 32⟩, ⟨108, 32⟩, ⟨104, 4⟩]
        (Record.assemble (b.window 32 4) (b.window 32 36) (b.window 32 68) (b.window 32 108)
          (b.window 4 104) s.prevRoot s.blockRoot) := by
  simp only [Record.read, Bytes.readOctets_eq]
  open Bytes in
  exact granted_bind (granted_bind (granted_bind (granted_bind (granted_bind rfl))))

/-- **A buffer has a record under its own solution when it reaches behind its roots.** -/
theorem Record.ofBuffer_eq_ok_iff {b : Bytes} {r : Record} :
    Record.ofBuffer b = .ok r ↔ 215 ≤ b.length ∧ r = b.record := by
  have hrecord : Record.read b b.solution =
      b.granted [⟨4, 32⟩, ⟨36, 32⟩, ⟨68, 32⟩, ⟨108, 32⟩, ⟨104, 4⟩] b.record := by
    rw [Record.read_eq, ← b.assemble_eq_record]
    rfl
  rw [Record.ofBuffer, Record.ofBuffers, Solution.read_eq, Bytes.granted_bind hrecord,
    Bytes.granted_eq_ok_iff, Bytes.forall_fits_iff (by decide)]
  rfl

theorem Record.ofBuffer_of_le {b : Bytes} (h : 215 ≤ b.length) :
    Record.ofBuffer b = .ok b.record :=
  Record.ofBuffer_eq_ok_iff.2 ⟨h, rfl⟩

/-! ## The decision -/

/-- What an inspection finds in a buffer that is long enough for it. -/
def decision (recordDigest : Record → Digest) (b : Bytes) : Finding :=
  if b.version ≤ 6 then .pass (.legacy b.version)
  else if b.byteAt 148 = 0 then .pass .noChains
  else if b.record = Octets.zero 196 then .pass .cleared
  else if recordDigest b.record = Digest.zero then .refused .noDigest
  else if b.window 32 235 ≠ recordDigest b.record then
    .refused (.mismatch (b.window 32 235) (recordDigest b.record))
  else .verified (b.byteAt 148) (b.window 20 215)

/-- **Each finding has its reason**: the first test that a buffer fails, or that it passes all. -/
theorem decision_cases (recordDigest : Record → Digest) (b : Bytes) :
    (b.version ≤ 6 ∧ decision recordDigest b = .pass (.legacy b.version)) ∨
    6 < b.version ∧
      ((b.byteAt 148 = 0 ∧ decision recordDigest b = .pass .noChains) ∨
      b.byteAt 148 ≠ 0 ∧
        ((b.record = Octets.zero 196 ∧ decision recordDigest b = .pass .cleared) ∨
        b.record ≠ Octets.zero 196 ∧
          ((recordDigest b.record = Digest.zero ∧ decision recordDigest b = .refused .noDigest) ∨
          recordDigest b.record ≠ Digest.zero ∧
            ((b.window 32 235 ≠ recordDigest b.record ∧ decision recordDigest b =
                .refused (.mismatch (b.window 32 235) (recordDigest b.record))) ∨
            (b.window 32 235 = recordDigest b.record ∧
              decision recordDigest b = .verified (b.byteAt 148) (b.window 20 215)))))) := by
  unfold decision
  rw [← UInt32.not_le]
  by_cases hv : b.version ≤ 6
  · simp [hv]
  by_cases hc : b.byteAt 148 = 0
  · simp [hv, hc]
  by_cases hr : b.record = Octets.zero 196
  · simp [hv, hc, hr]
  by_cases hz : recordDigest b.record = Digest.zero
  · simp [hv, hc, hr, hz]
  by_cases he : b.window 32 235 = recordDigest b.record
  · simp [hv, hc, hr, hz, he]
  · simp [hv, hc, hr, hz, he]

/-- The spans that an inspection depends on, in the order in which they are read. -/
def examinedSpans (b : Bytes) : List Span :=
  ⟨143, 4⟩ ::
    if b.version ≤ 6 then []
    else ⟨148, 1⟩ ::
      if b.byteAt 148 = 0 then []
      else [⟨149, 2⟩, ⟨151, 32⟩, ⟨183, 32⟩, ⟨215, 20⟩, ⟨235, 32⟩]

theorem carriesChains_iff {v : UInt32} : carriesChains v = true ↔ ¬ v ≤ 6 := by
  rw [carriesChains, decide_eq_true_eq, Layout.lastLegacyVersion, UInt32.not_le]

theorem compare_eq_decision {recordDigest : Record → Digest} {b : Bytes}
    (hv : ¬ b.version ≤ 6) (hc : b.byteAt 148 ≠ 0) :
    Finding.compare recordDigest (b.byteAt 148) b.firstEntry b.record = decision recordDigest b := by
  rw [decision, if_neg hv, if_neg hc, Finding.compare]
  by_cases hr : b.record = Octets.zero 196
  · rw [if_pos hr, if_pos (Octets.isZero_iff.2 hr)]
  rw [if_neg hr, if_neg fun h => hr (Octets.isZero_iff.1 h)]
  dsimp only
  by_cases hd : recordDigest b.record = Digest.zero
  · rw [if_pos hd, if_pos (Octets.isZero_iff.2 hd)]
  rw [if_neg hd, if_neg fun h => hd (Octets.isZero_iff.1 h)]
  by_cases he : recordDigest b.record = b.window 32 235
  · exact (if_pos he).trans (if_neg (not_not_intro he.symm)).symm
  · exact (if_neg he).trans (if_pos (Ne.symm he)).symm

/-- With chain entries claimed, solution, first entry and record are read in full. -/
theorem examine_of_claim {recordDigest : Record → Digest} {b : Bytes}
    (hv : ¬ b.version ≤ 6) (hc : b.byteAt 148 ≠ 0) :
    examine recordDigest b =
      b.granted ([⟨143, 4⟩] ++ ([⟨148, 1⟩] ++
        ([⟨143, 4⟩, ⟨147, 1⟩, ⟨148, 1⟩, ⟨149, 2⟩, ⟨151, 32⟩, ⟨183, 32⟩] ++
          ([⟨215, 20⟩, ⟨235, 32⟩] ++
            ([⟨4, 32⟩, ⟨36, 32⟩, ⟨68, 32⟩, ⟨108, 32⟩, ⟨104, 4⟩] ++ [])))))
        (decision recordDigest b) := by
  rw [examine, readVersion_eq]
  refine Bytes.granted_bind ?_
  rw [if_pos (carriesChains_iff.2 hv), readChains_eq]
  refine Bytes.granted_bind ?_
  rw [if_neg hc, Solution.read_eq, ChainEntry.readFirst_eq]
  refine Bytes.granted_bind (Bytes.granted_bind ?_)
  rw [Record.read_eq]
  refine Bytes.granted_bind ?_
  rw [← compare_eq_decision hv hc, ← Bytes.assemble_eq_record]
  rfl

/-- **An inspection is its decision, granted that the spans it depends on fit.** -/
theorem examine_eq (recordDigest : Record → Digest) (b : Bytes) :
    examine recordDigest b = b.granted (examinedSpans b) (decision recordDigest b) := by
  by_cases hv : b.version ≤ 6
  · rw [examine, readVersion_eq, examinedSpans, if_pos hv]
    show _ = b.granted ([⟨143, 4⟩] ++ []) _
    refine Bytes.granted_bind ?_
    rw [if_neg fun h => carriesChains_iff.1 h hv, decision, if_pos hv]
    rfl
  by_cases hc : b.byteAt 148 = 0
  · rw [examine, readVersion_eq, examinedSpans, if_neg hv, if_pos hc]
    show _ = b.granted ([⟨143, 4⟩] ++ ([⟨148, 1⟩] ++ [])) _
    refine Bytes.granted_bind ?_
    rw [if_pos (carriesChains_iff.2 hv), readChains_eq]
    refine Bytes.granted_bind ?_
    rw [if_pos hc, decision, if_neg hv, if_pos hc]
    rfl
  -- What is read twice, and the record, end no later than a span that is checked before them.
  rw [examine_of_claim hv hc, examinedSpans, if_neg hv, if_neg hc]
  have twice := Bytes.granted_append_of_stop_le (b := b) [⟨143, 4⟩, ⟨148, 1⟩]
    [⟨143, 4⟩, ⟨147, 1⟩, ⟨148, 1⟩]
    [⟨149, 2⟩, ⟨151, 32⟩, ⟨183, 32⟩, ⟨215, 20⟩, ⟨235, 32⟩, ⟨4, 32⟩, ⟨36, 32⟩, ⟨68, 32⟩, ⟨108, 32⟩,
      ⟨104, 4⟩] (decision recordDigest b) (by decide)
  have fields := Bytes.granted_append_of_stop_le (b := b)
    [⟨143, 4⟩, ⟨148, 1⟩, ⟨149, 2⟩, ⟨151, 32⟩, ⟨183, 32⟩, ⟨215, 20⟩, ⟨235, 32⟩]
    [⟨4, 32⟩, ⟨36, 32⟩, ⟨68, 32⟩, ⟨108, 32⟩, ⟨104, 4⟩] [] (decision recordDigest b) (by decide)
  exact twice.trans fields

/-! ## When an inspection succeeds -/

/-- The buffer reaches behind everything that its own version and count of chain entries make an
inspection read. -/
def Complete (b : Bytes) : Prop :=
  147 ≤ b.length ∧ (6 < b.version → 149 ≤ b.length ∧ (b.byteAt 148 ≠ 0 → 267 ≤ b.length))

theorem forall_examinedSpans_fits_iff {b : Bytes} :
    (∀ s ∈ examinedSpans b, s.Fits b.length) ↔ Complete b := by
  rw [Complete, examinedSpans, ← UInt32.not_le]
  by_cases hv : b.version ≤ 6
  · simp [hv, Span.Fits, Span.stop, UInt64.size]
  by_cases hc : b.byteAt 148 = 0
  · simp [hv, hc, Span.Fits, Span.stop, UInt64.size]
  · simp [hv, hc, Span.Fits, Span.stop, UInt64.size]
    omega

theorem complete_of_le {b : Bytes} (h : 267 ≤ b.length) : Complete b :=
  ⟨by omega, fun _ => ⟨by omega, fun _ => h⟩⟩

theorem examine_eq_ok {recordDigest : Record → Digest} {b : Bytes} {f : Finding}
    (h : examine recordDigest b = .ok f) : Complete b ∧ f = decision recordDigest b := by
  rw [examine_eq, Bytes.granted_eq_ok_iff, forall_examinedSpans_fits_iff] at h
  exact h

theorem examine_of_complete {b : Bytes} (h : Complete b) (recordDigest : Record → Digest) :
    examine recordDigest b = .ok (decision recordDigest b) := by
  rw [examine_eq, Bytes.granted_eq_ok_iff, forall_examinedSpans_fits_iff]
  exact ⟨h, rfl⟩

/-- **The decision procedure.** An inspection succeeds exactly on complete buffers, and then its
finding is the decision. -/
theorem examine_eq_ok_iff (recordDigest : Record → Digest) (b : Bytes) (f : Finding) :
    examine recordDigest b = .ok f ↔ Complete b ∧ f = decision recordDigest b := by
  constructor
  · exact examine_eq_ok
  · rintro ⟨hc, rfl⟩
    exact examine_of_complete hc recordDigest

/-! ## Verified headers -/

/-- A complete header that claims chain entries, and whose record has a digest. -/
structure Bindable (recordDigest : Record → Digest) (b : Bytes) : Prop where
  length : 267 ≤ b.length
  version : 6 < b.version
  chains : b.byteAt 148 ≠ 0
  record : b.record ≠ Octets.zero 196
  digest : recordDigest b.record ≠ Digest.zero

/-- What a verified header says: it claims chain entries, and the digest of its record is the one
that its first entry embeds. -/
structure Bound (recordDigest : Record → Digest) (b : Bytes) : Prop
    extends Bindable recordDigest b where
  embedded : b.window 32 235 = recordDigest b.record

/-- A header that is bound reaches behind everything that is cleared. -/
theorem Bound.reaches {recordDigest : Record → Digest} {b : Bytes} (h : Bound recordDigest b) :
    215 ≤ b.length := Nat.le_trans (by decide) h.length

theorem decision_of_bound {recordDigest : Record → Digest} {b : Bytes} (h : Bound recordDigest b) :
    decision recordDigest b = .verified (b.byteAt 148) (b.window 20 215) := by
  rw [decision, if_neg (UInt32.not_le.2 h.version), if_neg h.chains, if_neg h.record,
    if_neg h.digest, if_neg (not_not_intro h.embedded)]

/-- **A header is verified exactly when it is bound to its own chain.** -/
theorem examine_eq_verified_iff {recordDigest : Record → Digest} {b : Bytes} {n : UInt8}
    {chain : ChainId} :
    examine recordDigest b = .ok (.verified n chain) ↔
      Bound recordDigest b ∧ n = b.byteAt 148 ∧ chain = b.window 20 215 := by
  constructor
  · intro h
    obtain ⟨hc, hd⟩ := examine_eq_ok h
    rcases decision_cases recordDigest b with ⟨-, e⟩ | ⟨hv, ⟨-, e⟩ | ⟨hchains, ⟨-, e⟩ |
      ⟨hr, ⟨-, e⟩ | ⟨hz, ⟨-, e⟩ | ⟨he, e⟩⟩⟩⟩⟩ <;> rw [e] at hd <;> cases hd
    exact ⟨⟨⟨(hc.2 hv).2 hchains, hv, hchains, hr, hz⟩, he⟩, rfl, rfl⟩
  · rintro ⟨h, rfl, rfl⟩
    rw [examine_of_complete (complete_of_le h.length), decision_of_bound h]

/-! ## Inspecting a canonical form -/

theorem version_canonical (b : Bytes) : b.canonical.version = b.version := by
  apply Bytes.version_congr
  intro i h1 h2
  apply Bytes.byteAt_canonical_of_not
  rw [ChainSpecific]
  omega

theorem byteAt_chains_canonical (b : Bytes) : b.canonical.byteAt 148 = b.byteAt 148 :=
  Bytes.byteAt_canonical_of_not (by decide)

theorem record_eq_zero_iff {b : Bytes} :
    b.record = Octets.zero 196 ↔ ∀ i, ChainSpecific i → b.byteAt i = 0 := by
  have blank : Bytes.record [] = Octets.zero 196 := by
    have hzero : (Octets.zero 196).toList = List.replicate 196 0 := Vector.toList_replicate
    rw [← Vector.toList_inj, Bytes.toList_record, hzero]
    simp only [Bytes.window_nil, Octets.zero, Vector.toList_replicate,
      List.replicate_append_replicate]
  rw [← blank, Bytes.record_eq_record_iff]
  rfl

theorem record_canonical (b : Bytes) : b.canonical.record = Octets.zero 196 := by
  rw [record_eq_zero_iff]
  intro i hi
  rw [Bytes.byteAt_canonical, if_pos hi]

/-- What is read of a canonical form is what is read of the buffer. -/
theorem examinedSpans_canonical (b : Bytes) : examinedSpans b.canonical = examinedSpans b := by
  rw [examinedSpans, examinedSpans, version_canonical, byteAt_chains_canonical]

/-- **A canonical form passes as cleared where chain entries are claimed and complete, and is
inspected like the buffer everywhere else**, errors included. -/
theorem examine_canonical (recordDigest : Record → Digest) (b : Bytes) :
    examine recordDigest b.canonical =
      if 267 ≤ b.length ∧ 6 < b.version ∧ b.byteAt 148 ≠ 0 then .ok (.pass .cleared)
      else examine recordDigest b := by
  rw [examine_eq, examine_eq recordDigest b, examinedSpans_canonical]
  split
  · rename_i h
    obtain ⟨hlen, hv, hc⟩ := h
    rw [Bytes.granted_eq_ok_iff, Bytes.length_canonical, forall_examinedSpans_fits_iff, decision,
      version_canonical, byteAt_chains_canonical, if_neg (UInt32.not_le.2 hv), if_neg hc,
      if_pos (record_canonical b)]
    exact ⟨complete_of_le hlen, rfl⟩
  · rename_i h
    apply Bytes.granted_congr (Bytes.length_canonical b)
    intro fits
    have complete := forall_examinedSpans_fits_iff.1 fits
    rw [decision, decision, version_canonical, byteAt_chains_canonical]
    by_cases hv : b.version ≤ 6
    · rw [if_pos hv, if_pos hv]
    by_cases hc : b.byteAt 148 = 0
    · rw [if_neg hv, if_neg hv, if_pos hc, if_pos hc]
    have version := UInt32.not_le.1 hv
    exact absurd ⟨(complete.2 version).2 hc, version, hc⟩ h

end HeaderWork
