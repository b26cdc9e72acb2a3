import HeaderWork.Proofs.Rescoring
import HeaderWork.Proofs.Spelling
import HeaderWork.Proofs.Truncation

/-!
# Hashing what a text spells

A buffer may be given as a text. It is hashed as the bytes that the text spells behind its mark, and
a text that spells none is refused before anything is hashed.

* `digestOfText_of_spells` — the answer for a text, from the bytes that it spells.
* `digestOfText_eq_notHex_iff`, `digestOfText_eq_outOfRange_iff` — the texts that are refused, and
  those of bytes that are too few.
* `digestOf_eq_error` — the methods that fail, and where.
* `answer_digestOf_buffer` — a second digest of the buffer that the first one has left.
* `texts_are_hashed_as_bytes` — all methods, on all texts.
-/

namespace HeaderWork

namespace Scheme

variable {S : Scheme} {m : Method} {text : String} {b : Bytes}

/-! ## Texts -/

/-- **A text is hashed as the bytes that it spells**, with the same error where they are too few. -/
theorem digestOfText_of_spells (h : Hex.Spells (Hex.unmarked text) b) :
    S.digestOfText m text = (S.digestOf m b).answer.mapError Fault.outOfRange := by
  have hread := Hex.decode_ofString_eq_ok_iff.2 h
  cases hx : (S.digestOf m b).answer with
  | ok d =>
      show S.digestOfText m text = .ok d
      simp [digestOfText, Hex.dropMark_ofString, hread, hx]
  | error e =>
      show S.digestOfText m text = .error (.outOfRange e)
      simp [digestOfText, Hex.dropMark_ofString, hread, hx]

/-- A text is too short when its bytes are. -/
theorem digestOfText_eq_outOfRange_iff {e : OutOfRange} (h : Hex.Spells (Hex.unmarked text) b) :
    S.digestOfText m text = .error (.outOfRange e) ↔ (S.digestOf m b).answer = .error e := by
  rw [digestOfText_of_spells h]
  constructor
  · intro he
    cases hx : (S.digestOf m b).answer with
    | ok d =>
        rw [hx] at he
        cases he
    | error e' =>
        rw [hx] at he
        cases he
        rfl
  · intro he
    rw [he]
    rfl

theorem digestOfText_of_fault {f : Hex.Fault} (h : f.Of (Bytes.ofString (Hex.unmarked text))) :
    S.digestOfText m text = .error (.argument .notHex) := by
  rw [digestOfText, Hex.dropMark_ofString, Hex.decode_eq_error_iff.2 h]

/-- **A text that spells nothing is refused**, whatever the method, and no other is refused so. -/
theorem digestOfText_eq_notHex_iff :
    S.digestOfText m text = .error (.argument .notHex) ↔
      ∃ f : Hex.Fault, f.Of (Bytes.ofString (Hex.unmarked text)) := by
  constructor
  · intro h
    rcases Hex.exists_spells_or_fault (Hex.unmarked text) with ⟨b, hb⟩ | hf
    · rw [digestOfText_of_spells hb] at h
      cases hx : (S.digestOf m b).answer with
      | ok d =>
          rw [hx] at h
          cases h
      | error e =>
          rw [hx] at h
          cases h
    · exact hf
  · rintro ⟨f, hf⟩
    exact digestOfText_of_fault hf

/-! ## Buffers -/

/-- Only the last method fails, and its error has the size of the buffer. -/
theorem digestOf_eq_error {e : OutOfRange} (h : (S.digestOf m b).answer = .error e) :
    m = .v2b2 ∧ e.size = b.length := by
  cases m with
  | v2b2 =>
      rw [digestOf, scoreDigest, score_eq] at h
      cases hx : examine S.recordDigest b with
      | ok f =>
          rw [hx] at h
          cases h
      | error e' =>
          rw [hx] at h
          cases h
          obtain ⟨s, -, rfl⟩ := examine_eq_error_iff.1 hx
          exact ⟨rfl, rfl⟩
  | _ => cases h

/-- **A second digest of what the first one has left is the first.** -/
theorem answer_digestOf_buffer (S : Scheme) (b : Bytes) :
    (S.digestOf .v2b2 (S.digestOf .v2b2 b).buffer).answer = (S.digestOf .v2b2 b).answer := by
  show (S.score (S.score b).buffer).answer.map Score.digest = (S.score b).answer.map Score.digest
  rw [(S.score_settled b).1, Score.map_digest_map_settled]

theorem buffer_digestOf_of_verified {n : UInt8} {chain : ChainId}
    (h : examine S.recordDigest b = .ok (.verified n chain)) :
    (∃ d, (S.digestOf .v2b2 b).answer = .ok d) ∧
      (S.digestOf .v2b2 b).buffer = (clear b).buffer := by
  have hscore := score_of_ok h
  rw [clear_of_verified h, digestOf, scoreDigest, hscore]
  exact ⟨⟨_, rfl⟩, rfl⟩

end Scheme

/-- **Texts are hashed as bytes.** A text, behind one mark, that is not an even number of digits is
refused by every method, and so it is as the text of a digest; no error of the buffer comes first.
Any other text spells a byte string and gets what that gets, in any mix of cases, marked or not: a
digest by each method but the last, which may find the buffer too short and names its size. The last
method changes no more than its own copy, and gives the same for what it has left there; so a verified
header and its cleared form are one text to it. -/
theorem texts_are_hashed_as_bytes (S : Scheme) :
    (∀ m text, S.digestOfText m text = .error (.argument .notHex) ↔
      ¬ ((Hex.unmarked text).length % 2 = 0 ∧ ∀ c ∈ (Hex.unmarked text).toList, c ∈ Hex.digits)) ∧
    (∀ m text, S.digestOfText m text = .error (.argument .notHex) ↔
      ∃ f, Digest.ofText text = .error (.hex f)) ∧
    ArgumentFault.notHex.text = "input is not valid hex" ∧
    (∀ m ≠ .v2b2, ∀ text, (Hex.unmarked text).length % 2 = 0 →
      (∀ c ∈ (Hex.unmarked text).toList, c ∈ Hex.digits) → ∃ d, S.digestOfText m text = .ok d) ∧
    (∀ b u, u.toLower = Hex.encode b → ∀ text ∈ [u, "0x" ++ u],
      (∀ m, S.digestOfText m text = (S.digestOf m b).answer.mapError Fault.outOfRange) ∧
      (∀ m e, S.digestOfText m text = .error (.outOfRange e) → m = .v2b2 ∧ e.size = b.length) ∧
      S.digestOfText .v2b2 text =
        (S.digestOf .v2b2 (S.digestOf .v2b2 b).buffer).answer.mapError Fault.outOfRange) ∧
    (∀ b n chain, examine S.recordDigest b = .ok (.verified n chain) →
      ∃ d, ∀ u, u.toLower = Hex.encode b ∨ u.toLower = Hex.encode (clear b).buffer →
        ∀ text ∈ [u, "0x" ++ u], S.digestOfText .v2b2 text = .ok d) := by
  refine ⟨?_, ?_, rfl, ?_, ?_, ?_⟩
  · intro m text
    rw [Scheme.digestOfText_eq_notHex_iff, ← Hex.exists_spells_iff]
    constructor
    · rintro ⟨f, hf⟩ ⟨b, hb⟩
      exact hb.not_fault f hf
    · intro h
      exact (Hex.exists_spells_or_fault _).resolve_left h
  · intro m text
    rw [Scheme.digestOfText_eq_notHex_iff]
    simp only [Digest.ofText_eq_error_iff]
    rfl
  · intro m hm text heven hdigits
    obtain ⟨b, hb⟩ := Hex.exists_spells_iff.2 ⟨heven, hdigits⟩
    rw [Scheme.digestOfText_of_spells hb]
    cases hx : (S.digestOf m b).answer with
    | ok d => exact ⟨d, rfl⟩
    | error e => exact absurd (Scheme.digestOf_eq_error hx).1 hm
  · intro b u hu text htext
    have hu : Hex.Spells u b := hu
    have h := hu.unmarked_of_mem htext
    refine ⟨fun m => Scheme.digestOfText_of_spells h, ?_, ?_⟩
    · intro m e he
      exact Scheme.digestOf_eq_error ((Scheme.digestOfText_eq_outOfRange_iff h).1 he)
    · rw [Scheme.digestOfText_of_spells h, Scheme.answer_digestOf_buffer]
  · intro b n chain hx
    obtain ⟨⟨d, hd⟩, hbuffer⟩ := Scheme.buffer_digestOf_of_verified hx
    have hcleared : (S.digestOf .v2b2 (clear b).buffer).answer = .ok d := by
      rw [← hbuffer, Scheme.answer_digestOf_buffer, hd]
    refine ⟨d, ?_⟩
    rintro u (hu | hu) text htext
    · have hu : Hex.Spells u b := hu
      rw [Scheme.digestOfText_of_spells (hu.unmarked_of_mem htext), hd]
      rfl
    · have hu : Hex.Spells u (clear b).buffer := hu
      rw [Scheme.digestOfText_of_spells (hu.unmarked_of_mem htext), hcleared]
      rfl

end HeaderWork
