import AsmListing.CommandLine.Run
import AsmListing.Proofs.ChangeReport
import AsmListing.Proofs.FailedRemoval

/-! What a run of the program changes on the disk. Only a removal and an edit of the settings have an
effect. A run that fails has had none, but for one case: the change has been made, and what is told
about it has no bytes. -/
namespace AsmListing

namespace Workspace

variable {w w' : Workspace} {module name : LooseText} {mode : RemovalMode}
  {result : Except Failure RemovalReport}

end Workspace

namespace Program

variable {answer : List LooseText} {attempt : Attempt (List LooseText)}

theorem disk_finish (verbose : Bool) (attempt : Attempt (List LooseText)) (d : Disk) :
    (finish verbose attempt d).disk = d := by
  unfold finish
  split
  · split <;> rfl
  · split <;> rfl

/-- A run that has an answer succeeds, unless a surrogate stands in that. -/
theorem finish_of_answer (verbose : Bool) (h : attempt.result = .ok answer) (d : Disk) :
    (finish verbose attempt d).exitCode = 0 ∨
      (∃ t ∈ answer, t.HasSurrogate) ∧
        ∃ fault, (finish verbose attempt d).escaped = some (.unprintable fault) := by
  unfold finish
  simp only [h]
  split
  · exact Or.inl rfl
  · next output fault hprint => exact Or.inr ⟨hasSurrogate_of_print hprint, fault, rfl⟩

/-- A failure that is not reported ends a run that has taken no notes. -/
theorem finish_unreported {e : Failure} (h : e.exitCode? = none) (verbose : Bool) (d : Disk) :
    finish verbose ⟨[], .error e⟩ d = ⟨1, [], [], some e, d⟩ := by
  simp only [finish, h]
  rfl

end Program

section Limited

variable [NestingLimit]

namespace Change

variable {ctx : Context} {d d' : Disk} {module name : LooseText} {dryRun display : Bool}
  {edit : SettingsEdit} {attempt : Attempt (List LooseText)}

end Change

namespace Program

open Call (resolve)

variable {ctx : Context} {s : Surroundings} {d d' : Disk} {arguments answer : List LooseText}
  {command : Command} {attempt : Attempt (List LooseText)}

/-- A run of a command ends with what the command does. -/
theorem run_of_command {options : GlobalOptions} {root : FilePath}
    (hresolve : resolve (checkRoot d s.directory) arguments = .ok (options, command))
    (hroot : workspaceRoot s d options.root = .ok root) :
    run s d arguments =
      finish options.verbose (perform ⟨options.json, root, s.listing, s.clock⟩ d command).1
        (perform ⟨options.json, root, s.listing, s.clock⟩ d command).2 := by
  simp only [run, hresolve, hroot]

end Program

end Limited

namespace Program

open Call (resolve)

/-- A run without a workspace around it. -/
def nowhere : Surroundings := ⟨⟨.root, []⟩, none, none, "2024-01-01T00:00:00Z"⟩

end Program

end AsmListing
