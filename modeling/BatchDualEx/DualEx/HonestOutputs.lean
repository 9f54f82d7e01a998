import BatchDualEx.DualEx.EvaluationOutcome
import BatchDualEx.DualEx.HonestExecution

/- A bucket of two honest parties from the seeds of the circuits to what both `execute` return, with
   the threads of the online phase in any order. -/
namespace BatchDualEx.Opening

open HalfGtGarbledCircuit

variable {Digest : Type}

def Execution.evaluation (e : Execution) (results : Role → List (Block × List Bool))
    (mPSIInputPermutes : Role → Equiv.Perm (Fin e.bucketSize))
    (draws : Role → Fin e.bucketSize → Nat → Block) (psi : Role → PsiSetup Digest) :
    Evaluation e.bucketSize Digest where
  psiValue r c := ((results r).getD c (zeroBlock, [])).1
  outputs r c := ((results r).getD c (zeroBlock, [])).2
  mPSIInputPermutes := mPSIInputPermutes
  draws := draws
  psi := psi

theorem evaluation_result {aes : Block → Block → Block} {Commit : List Block → Digest}
    {e : Execution} (honest : e.Honest) [DecidableEq Digest]
    {results : Role → List (Block × List Bool)} (run : e.run aes Commit = .ok results) (r : Role)
    (c : Fin e.bucketSize) : (results r).getD c (zeroBlock, []) =
      (e.psiValue aes, e.cir.translate (e.cir.evaluate e.plainInput)) := by
  have total : ∃ results', e.run aes Commit = .ok results' ∧ _ := run_total honest
  obtain ⟨results', run', spec⟩ := total
  cases run.symm.trans run'
  have inside : (c : Nat) < (results r).length := (spec r).1.symm ▸ c.isLt
  rw [List.getD_eq_getElem _ _ inside]
  exact (spec r).2 _ (List.getElem_mem inside)

/-- The last two bits tell the parties apart, and a draw from the value it is added to. -/
def drawOffset : Role → Nat → Block
  | .first, c => BitVec.ofNat 128 (4 * c + 1)
  | .second, c => BitVec.ofNat 128 (4 * c + 2)

theorem agreeOn_xor {w : Nat} {v x y : Block} (agree : AgreeOn w (v ^^^ x) (v ^^^ y)) :
    AgreeOn w x y := by
  intro i below
  have here := agree i below
  rw [BitVec.getLsbD_xor, BitVec.getLsbD_xor] at here
  exact Bool.xor_right_inj.mp here

end BatchDualEx.Opening
