import HeaderWork.Pool
import HeaderWork.Proofs.Absorption
import HeaderWork.Scoring

/-!
# Streaming into a pool of sponges

However the input of a sponge is cut, and whatever is done to the other sponges of its pool, it
stands where a fresh sponge stands that has taken in the same bytes at once.

* `Pool.Holds` — every sponge of a pool has taken in what it was given; `holds_step`, `holds_run` —
  each step keeps it, and so does every run.
* `Pool.run_map_write`, `Pool.getElem?_reset` — pieces written one after the other, and after a reset.
* `pool_refines_single_writes` — the digests of every sponge after every run, and what follows for
  cutting, resetting, closing, copying and hashing at once.
-/

namespace HeaderWork

/-- Bytes absorbed in pieces are absorbed at once. -/
theorem Sponge.foldl_absorb (compress : Compression) (s : Sponge) (parts : List Bytes) :
    parts.foldl (absorb compress) s = s.absorb compress parts.flatten := by
  induction parts generalizing s with
  | nil => rw [List.foldl_nil, List.flatten_nil, absorb_nil]
  | cons part rest ih => rw [List.foldl_cons, ih, List.flatten_cons, absorb_append]

namespace Pool

/-- Every sponge has taken in what it was given. -/
structure Holds (compress : Compression) (p : Pool) (past : List PoolStep) : Prop where
  length : p.length = count past
  sponge : ∀ i < count past, p[i]? = some (Sponge.fresh.absorb compress (given past i))

variable {compress : Compression} {p : Pool} {past : List PoolStep}

/-! ## One step -/

/-- One sponge changed by `f` has taken in what `g` makes of the bytes that it was given. -/
theorem getElem?_modify_of_holds (h : Holds compress p past) {f : Sponge → Sponge}
    {g : Bytes → Bytes}
    (hfg : ∀ d, f (Sponge.fresh.absorb compress d) = Sponge.fresh.absorb compress (g d)) (j : Nat) :
    ∀ i < count past, (p.modify j f)[i]? =
      some (Sponge.fresh.absorb compress (if i = j then g (given past i) else given past i)) := by
  intro i hi
  by_cases hij : i = j
  · subst hij
    rw [List.getElem?_modify_eq, h.sponge i hi, if_pos rfl, ← hfg]
    rfl
  · rw [List.getElem?_modify_ne f p (Ne.symm hij), h.sponge i hi, if_neg hij]

theorem step_copy (h : Holds compress p past) (j : Nat) :
    p.step compress (.copy j) =
      if j < count past then p ++ [Sponge.fresh.absorb compress (given past j)] else p := by
  by_cases hj : j < count past
  · simp only [step, h.sponge j hj, if_pos hj]
  · have hnone : p[j]? = none := List.getElem?_eq_none (by rw [h.length]; omega)
    simp only [step, hnone, if_neg hj]

theorem holds_copy (h : Holds compress p past) (j : Nat) :
    Holds compress (p.step compress (.copy j)) (.copy j :: past) := by
  rw [step_copy h]
  by_cases hj : j < count past
  · have hcount : count (.copy j :: past) = count past + 1 := if_pos hj
    rw [if_pos hj]
    refine ⟨by simp [hcount, h.length], ?_⟩
    intro i hi
    rw [hcount] at hi
    rcases Nat.lt_or_eq_of_le (Nat.le_of_lt_succ hi) with hold | rfl
    · rw [List.getElem?_append_left (by rw [h.length]; exact hold), h.sponge i hold]
      simp [given, Nat.ne_of_lt hold]
    · simp [given, ← h.length]
  · -- There is no sponge to copy, and so nothing to add.
    have hcount : count (.copy j :: past) = count past := if_neg hj
    rw [if_neg hj]
    refine ⟨by rw [hcount, h.length], ?_⟩
    intro i hi
    rw [hcount] at hi
    rw [h.sponge i hi]
    simp [given, Nat.ne_of_lt hi]

/-- **Each step keeps it**: what a sponge is given and what it takes in change together. -/
theorem holds_step (h : Holds compress p past) (t : PoolStep) :
    Holds compress (p.step compress t) (t :: past) := by
  cases t with
  | write j data =>
    refine ⟨(List.length_modify _ p j).trans h.length, ?_⟩
    apply getElem?_modify_of_holds h (g := fun d => d ++ data)
    intro d
    exact (Sponge.absorb_append compress Sponge.fresh d data).symm
  | reset j =>
    refine ⟨(List.length_modify _ p j).trans h.length, ?_⟩
    apply getElem?_modify_of_holds h (g := fun _ => [])
    intro d
    exact (Sponge.absorb_nil compress Sponge.fresh).symm
  | finalize j => exact ⟨h.length, h.sponge⟩
  | copy j => exact holds_copy h j

/-! ## Runs -/

theorem holds_start : Holds compress start [] := by
  refine ⟨rfl, ?_⟩
  intro i hi
  obtain rfl : i = 0 := by simpa [count] using hi
  simp [start, given, Sponge.absorb_nil]

/-- **So does every run.** -/
theorem holds_run (compress : Compression) (past : List PoolStep) :
    Holds compress (run compress start past.reverse) past := by
  induction past with
  | nil => exact holds_start
  | cons t past ih =>
    rw [List.reverse_cons, run_concat]
    exact holds_step ih t

/-- A copy goes on from what its original was given, also when the original is reset. -/
example : given [.write 1 [3], .reset 0, .copy 0, .write 0 [1, 2]] 1 = [1, 2, 3] := by decide

/-- Pieces written to a sponge one after the other are written at once, whatever the pool. -/
theorem run_map_write (compress : Compression) (p : Pool) (i : Nat) (parts : List Bytes) :
    run compress p (parts.map (.write i)) = p.step compress (.write i parts.flatten) := by
  induction parts generalizing p with
  | nil =>
    have hid : (fun s : Sponge => s.absorb compress []) = id :=
      funext fun s => s.absorb_nil compress
    show p = p.modify i fun s => s.absorb compress []
    rw [hid, List.modify_id]
  | cons part rest ih =>
    have hcomp : (fun s : Sponge => s.absorb compress (part ++ rest.flatten)) =
        (fun s => s.absorb compress rest.flatten) ∘ fun s => s.absorb compress part :=
      funext fun s => s.absorb_append compress part rest.flatten
    show run compress (p.step compress (.write i part)) (rest.map (.write i)) =
      p.modify i fun s => s.absorb compress (part ++ rest.flatten)
    rw [ih, hcomp]
    exact List.modify_modify_eq _ _ i p

/-- A sponge that has been reset is fresh, whatever it held. -/
theorem getElem?_reset {i : Nat} (h : i < p.length) (parts : List Bytes) :
    (run compress p (.reset i :: parts.map (.write i)))[i]? =
      some (Sponge.fresh.absorb compress parts.flatten) := by
  show (run compress (p.modify i fun _ => Sponge.fresh) (parts.map (.write i)))[i]? = _
  rw [run_map_write]
  simp [step, List.getElem?_eq_getElem h]

end Pool

/-! ## Digests -/

/-- **A pool of streams refines single writes.** After every run, closing any sponge, in either way,
gives what a fresh sponge gives for one write of all that it was given since its last reset. So
neither the cuts between writes can be told from a digest, nor what was there before a reset, nor
that a sponge has been closed, nor what is done to the others; and hashing a buffer at once is
streaming it in any pieces. -/
theorem pool_refines_single_writes (compress mix : Compression) (steps : List PoolStep) :
    let p := Pool.run compress Pool.start steps
    let once := fun i => Sponge.fresh.absorb compress (Pool.given steps.reverse i)
    p.length = Pool.count steps.reverse ∧
    (∀ i s, p[i]? = some s →
      s.squeeze compress = (once i).squeeze compress ∧
        s.squeezeFolded compress mix = (once i).squeezeFolded compress mix) ∧
    (∀ i (parts : List Bytes),
      Pool.run compress p (parts.map (.write i)) = p.step compress (.write i parts.flatten)) ∧
    (∀ i (parts : List Bytes), i < p.length →
      (Pool.run compress p (.reset i :: parts.map (.write i)))[i]? =
        some (Sponge.fresh.absorb compress parts.flatten)) ∧
    (∀ i, p.step compress (.finalize i) = p) ∧
    (∀ t i, i ≠ t.target p → (p.step compress t)[i]? = p[i]?) ∧
    (∀ (S : Scheme) (parts : List Bytes),
      let first := parts.foldl (Sponge.absorb S.first) Sponge.fresh
      let second := parts.foldl (Sponge.absorb S.second) Sponge.fresh
      (S.digestOf .v1 parts.flatten).answer = .ok (first.squeeze S.first) ∧
        (S.digestOf .v2 parts.flatten).answer = .ok (second.squeeze S.second) ∧
        (S.digestOf .v2b parts.flatten).answer = .ok (second.squeezeFolded S.second S.mix) ∧
        (S.digestOf .v2b1 parts.flatten).answer =
          .ok (second.squeezeFolded S.second S.mix)) := by
  intro p once
  have holds : Pool.Holds compress p steps.reverse := by
    simpa [p] using Pool.holds_run compress steps.reverse
  refine ⟨holds.length, ?_, ?_, ?_, fun _ => rfl, ?_, ?_⟩
  · intro i s hs
    have hi : i < Pool.count steps.reverse := by
      rw [← holds.length]
      exact (List.getElem?_eq_some_iff.1 hs).1
    obtain rfl : s = once i := Option.some.inj (hs.symm.trans (holds.sponge i hi))
    exact ⟨rfl, rfl⟩
  · intro i parts
    exact Pool.run_map_write compress p i parts
  · intro i parts hi
    exact Pool.getElem?_reset hi parts
  · intro t i hi
    exact Pool.getElem?_step_of_ne_target hi
  · intro S parts first second
    have hfirst : first = Sponge.fresh.absorb S.first parts.flatten := Sponge.foldl_absorb ..
    have hsecond : second = Sponge.fresh.absorb S.second parts.flatten := Sponge.foldl_absorb ..
    rw [hfirst, hsecond]
    exact ⟨rfl, rfl, rfl, rfl⟩

end HeaderWork
