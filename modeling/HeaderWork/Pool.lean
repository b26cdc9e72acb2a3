import HeaderWork.Sponge

/-!
# Pools of sponges

Several sponges of one family, each fed and closed on its own (`VerusHasher`, `VerusHasherV2`).

* `PoolStep` — what can be done to one sponge of a pool (`write`, `reset`, `finalize`, `clone`).
* `PoolStep.target` — the sponge that a step is about: for a copy, the new one.
* `Pool.step`, `Pool.run` — the pool after one step, and after several;
  `getElem?_step_of_ne_target` — a step changes no sponge but its own.
* `Pool.count`, `Pool.given` — how many sponges some steps have made, and the bytes that each has
  been given since its last reset, looking back from the last step.
-/

namespace HeaderWork

/-- Sponges by their place. -/
abbrev Pool := List Sponge

/-- A step on the sponge at place `i`. -/
inductive PoolStep where
  | write (i : Nat) (data : Bytes)
  | reset (i : Nat)
  | finalize (i : Nat)
  | copy (i : Nat)
deriving DecidableEq, Repr

/-- The place of the sponge that a step on `p` is about. -/
def PoolStep.target (p : Pool) : PoolStep → Nat
  | .write i _ => i
  | .reset i => i
  | .finalize i => i
  | .copy _ => p.length

namespace Pool

/-! ## Steps -/

/-- The pool that every run starts from. -/
def start : Pool := [Sponge.fresh]

/-- The pool after a step. A copy goes to the end; closing a sponge changes nothing. -/
def step (compress : Compression) (p : Pool) : PoolStep → Pool
  | .write i data => p.modify i fun s => s.absorb compress data
  | .reset i => p.modify i fun _ => Sponge.fresh
  | .finalize _ => p
  | .copy i =>
    match p[i]? with
    | some s => p ++ [s]
    | none => p

def run (compress : Compression) (p : Pool) (steps : List PoolStep) : Pool :=
  steps.foldl (step compress) p

theorem run_concat (compress : Compression) (p : Pool) (steps : List PoolStep) (t : PoolStep) :
    run compress p (steps ++ [t]) = (run compress p steps).step compress t := by
  simp [run]

/-- **A step changes no sponge but its own.** -/
theorem getElem?_step_of_ne_target {compress : Compression} {p : Pool} {t : PoolStep} {i : Nat}
    (h : i ≠ t.target p) :
    (p.step compress t)[i]? = p[i]? := by
  cases t with
  | write j data => exact List.getElem?_modify_ne _ p (Ne.symm h)
  | reset j => exact List.getElem?_modify_ne _ p (Ne.symm h)
  | finalize j => rfl
  | copy j =>
    have hi : i ≠ p.length := h
    simp only [step]
    cases p[j]? with
    | none => rfl
    | some s =>
      rcases Nat.lt_or_gt_of_ne hi with hlt | hgt
      · exact List.getElem?_append_left hlt
      · rw [List.getElem?_eq_none (by simp; omega), List.getElem?_eq_none (by omega)]

/-! ## What each sponge was given -/

/-- The number of sponges after some steps, of which the last comes first. -/
def count : List PoolStep → Nat
  | [] => 1
  | .copy i :: past => if i < count past then count past + 1 else count past
  | _ :: past => count past

/-- The bytes written to the sponge at place `i` since its last reset, by steps of which the last
comes first. A copy begins with those of its original. -/
def given : List PoolStep → Nat → Bytes
  | [], _ => []
  | .write j data :: past, i => if i = j then given past i ++ data else given past i
  | .reset j :: past, i => if i = j then [] else given past i
  | .finalize _ :: past, i => given past i
  | .copy j :: past, i => if i = count past then given past j else given past i

end Pool

end HeaderWork
