import TypeFlow.Analysis
import TypeFlow.Proofs.Inference.Ending
import TypeFlow.Proofs.Lowering.Lowered
import TypeFlow.Proofs.Program.Annotation
import TypeFlow.Proofs.Reference.Faults
import TypeFlow.Program
/-!
# What an analysis can stop at

Each pass leaves the program in the form that the next one needs: lowering succeeds on a composed
program and makes it a lowered one, references then make it a resolved one. So an analysis never
stops at a missing part or name, at a stale handle or at a surface form. If it stops, the fault is
a `ProgramFault`: the program uses a name that nothing in it has, gives a container type an
argument that it cannot have, has a node without a consistent type, or takes more rounds than it
may (`Analysis.run_blames_program`).
-/

namespace TypeFlow

open TypeFlow.Graph Program

/-- A fault that lies in the program below a root, not in a pass. -/
inductive ProgramFault (g : Graph) (root : NodeId) : Fault → Prop
  | unknownIdentifier (name : String) (node : NodeId) :
      ProgramFault g root (.unknownIdentifier name node)
  | unknownFunction (name : String) (node : NodeId) :
      ProgramFault g root (.unknownFunction name node)
  | unknownClass (name : String) (node : NodeId) : ProgramFault g root (.unknownClass name node)
  | noConsistentType (node : NodeId) (kind : NodeKind) (shown permitted : TypeSet) :
      ProgramFault g root (.noConsistentType node kind shown permitted)
  | diverged (rule : String) (node : NodeId) (rounds : Nat) :
      ProgramFault g root (.diverged rule node rounds)
  | badContainer {cause : TypeSet.Malformed} (hbad : BadContainer g root cause) :
      ProgramFault g root (.malformedSet cause)

variable {g g' : Graph} {root : NodeId} {fault : Fault}

namespace ProgramFault

theorem of_isUnknownName (h : fault.isUnknownName) : ProgramFault g root fault := by
  cases fault with
  | unknownIdentifier name node => exact .unknownIdentifier name node
  | unknownFunction name node => exact .unknownFunction name node
  | unknownClass name node => exact .unknownClass name node
  | _ => cases h

theorem of_isInconsistent (h : fault.isInconsistent) : ProgramFault g root fault := by
  cases fault with
  | noConsistentType node kind shown permitted =>
    exact .noConsistentType node kind shown permitted
  | _ => cases h

theorem of_isDiverged (h : fault.isDiverged) : ProgramFault g root fault := by
  cases fault with
  | diverged rule node rounds => exact .diverged rule node rounds
  | _ => cases h

end ProgramFault

/-- On a resolved program an inference stops only at a fault of the program. -/
theorem Inference.programFault_of_run (hg : Resolved g root) {ceiling : Nat} {allow : Bool}
    (hrun : (run root ceiling allow).run g = (.error fault, g')) : ProgramFault g' root fault := by
  by_cases hdiverged : fault.isDiverged
  · exact .of_isDiverged hdiverged
  · have hends := ends_of_run hg hrun fun fault' h => by
      obtain rfl := Except.error.inj h
      simpa using hdiverged
    cases hends with
    | badType hseeds hbad =>
      -- nothing was inferred yet, so that the declared type is one of the program reached
      rw [run_eq, hseeds] at hrun
      obtain rfl := (Run.outcome_eq.1 hrun).2
      obtain ⟨cause, rfl, hcontainer⟩ := badContainer_of_badType (resolved_withReturnSlots hg) hbad
      exact .badContainer hcontainer
    | inconsistent _ _ hfault _ => exact .of_isInconsistent hfault

namespace Analysis

variable {s : Settings} {outcome : Except Fault Report}

/-- An analysis that lowers a composed program ends well or stops at a fault of the program, as long
as the nodes of the lowered program can be numbered by 32 bits. -/
theorem run_blames_program (hp : Parsed g root) (hc : Composed g root) (hlower : s.lower = true)
    (hsmall : ((Lowering.run root).run g).2.size ≤ 2 ^ 32)
    (hrun : (run s root).run g = (outcome, g')) :
    (∃ report, outcome = .ok report) ∨
      ∃ fault, outcome = .error fault ∧ ProgramFault g' root fault := by
  obtain ⟨k, lowered, hlowering, hlowered⟩ := Lowering.run_lowered hp hc
  rw [hlowering] at hsmall
  obtain ⟨hlowered, hcomposed⟩ := hlowered hsmall
  have hif : (lowerIf root s.lower).run g = (.ok (some k), lowered) := by
    rw [lowerIf, hlower, if_pos rfl, Run.run_bind_of_ok hlowering, Run.run_pure]
  cases outcome with
  | ok report => exact Or.inl ⟨report, rfl⟩
  | error fault =>
    refine Or.inr ⟨fault, rfl, ?_⟩
    rw [run, Run.run_bind_of_ok hif, Run.run_bind_eq_error] at hrun
    rcases hrun with hreferences | ⟨_, resolved, hreferences, hrun⟩
    · exact (Reference.fault_of_run hlowered hcomposed.named hreferences).elim .of_isDiverged
        .of_isUnknownName
    · rw [Run.run_bind_eq_error] at hrun
      rcases hrun with hinference | ⟨_, _, -, hrun⟩
      · exact Inference.programFault_of_run (Reference.resolved_of_run hlowered hreferences).1
          hinference
      · cases (Run.outcome_eq.1 hrun).1

/-- A function whose parameter is declared a list of anything, which is looped over; a sum is piped
to a call with a keyword argument. -/
def misdeclaredSource : Build Unit := do
  let main ← Program.function "main"
  let _ ← Program.param main "rows" (some (← Program.genericType .list (← Program.dynamicType)))
  let loop ← Program.forIn ⟨2⟩ "row" (← Program.ident "rows")
  let sum ← Program.operatorSeq (← Program.int 1) [("+", ← Program.int 2), ("*", ← Program.int 3)]
  let arg ← Program.kwArg "row" (← Program.ident "row")
  let pipe ← Program.dotPipe sum [← Program.call "print" [arg]]
  let _ ← Program.exprStmt loop pipe

def misdeclared : Graph := (misdeclaredSource.run Program.empty).2

/-- The forms are lowered and the names found; then the declared type is to blame. -/
theorem run_blames_program_misdeclared : Parsed misdeclared Program.root ∧
    Composed misdeclared Program.root ∧ Settings.standard.lower = true ∧
    ((Lowering.run Program.root).run misdeclared).2.size ≤ 2 ^ 32 ∧
    ∃ g', (run Settings.standard Program.root).run misdeclared =
        (.error (.malformedSet (.argumentNotLeaf .univ)), g') ∧
      ProgramFault g' Program.root (.malformedSet (.argumentNotLeaf .univ)) := by
  have hparsed : Parsed misdeclared Program.root := by decide +kernel
  have hcomposed : Composed misdeclared Program.root := by decide +kernel
  have hsmall : ((Lowering.run Program.root).run misdeclared).2.size ≤ 2 ^ 32 := by decide +kernel
  have herror : ((run Settings.standard Program.root).run misdeclared).1 =
      .error (.malformedSet (.argumentNotLeaf .univ)) := by decide +kernel
  rcases hrun : (run Settings.standard Program.root).run misdeclared with ⟨outcome, g'⟩
  rw [hrun] at herror
  obtain rfl : outcome = .error (.malformedSet (.argumentNotLeaf .univ)) := herror
  rcases run_blames_program hparsed hcomposed rfl hsmall hrun with ⟨report, h⟩ | ⟨fault, h, hfault⟩
  · cases h
  · obtain rfl := Except.error.inj h
    exact ⟨hparsed, hcomposed, rfl, hsmall, g', rfl, hfault⟩

end Analysis

end TypeFlow
