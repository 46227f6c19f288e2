import CrateAnalysis.Analysis.Session
import CrateAnalysis.Proofs.Analysis.Ending

/-!
# What a session shows

A session shows what its last analysis found, in the form of a `Snapshot`. One step lemma says
what each command does to the snapshot, and the run lemmas follow by induction on the commands.
The main statements describe every session that has been reached from a new one. It is coherent:
what it shows fits together, and fits what the stages of its last analysis returned. And it has
no memory: earlier analyses, and replacements that came later, leave no trace in it.
-/

set_option autoImplicit false

namespace CrateAnalysis

/-- What a session shows of its last analysis. -/
structure Snapshot where
  phase : Phase
  tokens : List Token
  cst? : Option Cst
  ast? : Option Ast
  result? : Option AnalysisResult

namespace Snapshot

/-- There is no analysis to show. -/
def idle : Snapshot := ⟨.idle, [], none, none, none⟩

/-- An analysis has found this. -/
def analysed (found : Findings) : Snapshot :=
  ⟨.analysed, found.tokens, found.cst?, found.ast?, some found.result⟩

end Snapshot

/-- The adapter that a command puts in place. -/
def Command.adapter? : Command → Option Adapter
  | setAdapter adapter => some adapter
  | _ => none

/-- The reducer that a command puts in place. -/
def Command.reducer? : Command → Option Reducer
  | setReducer reducer => some reducer
  | _ => none

/-- What is in force after some commands, if `first` was before them: what the last command that
puts anything in place puts there. -/
def inForce {α : Type} (placed? : Command → Option α) (first : α) (commands : List Command) : α :=
  (commands.filterMap placed?).getLastD first

/-- What is in force after a command and some others is what the others leave in force, if the
command was before them. -/
theorem inForce_cons {α : Type} (placed? : Command → Option α) (first : α) (command : Command)
    (commands : List Command) :
    inForce placed? first (command :: commands) =
      inForce placed? ((placed? command).getD first) commands := by
  unfold inForce
  cases hplaced : placed? command with
  | none => rw [List.filterMap_cons_none hplaced, Option.getD_none]
  | some placed => rw [List.filterMap_cons_some hplaced, List.getLastD_cons, Option.getD_some]

/-- The last analysis among some commands stands between those before it and those after it. -/
theorem exists_last_analyse (commands : List Command) :
    (∀ source, .analyse source ∉ commands) ∨
      ∃ before source after, commands = before ++ .analyse source :: after ∧
        ∀ later, .analyse later ∉ after := by
  induction commands with
  | nil => exact .inl (by simp)
  | cons command commands ih =>
    rcases ih with hnone | ⟨before, source, after, rfl, hafter⟩
    · cases command with
      | analyse source => exact .inr ⟨[], source, commands, rfl, hnone⟩
      | reset => exact .inl (by simpa using hnone)
      | setAdapter adapter => exact .inl (by simpa using hnone)
      | setReducer reducer => exact .inl (by simpa using hnone)
    · exact .inr ⟨command :: before, source, after, rfl, hafter⟩

/-- An analysis is among some commands, and no reset comes after it. -/
def LeavesAnalysis (commands : List Command) : Prop :=
  ∃ before source after, commands = before ++ .analyse source :: after ∧ .reset ∉ after

/-- The first command leaves an analysis if it is one and no reset follows; otherwise the rest has
to leave one. -/
theorem leavesAnalysis_cons {command : Command} {commands : List Command} :
    LeavesAnalysis (command :: commands) ↔
      (∃ source, command = .analyse source) ∧ .reset ∉ commands ∨ LeavesAnalysis commands := by
  constructor
  · rintro ⟨before, source, after, heq, hafter⟩
    rcases List.cons_eq_append_iff.mp heq with ⟨rfl, hrest⟩ | ⟨before', rfl, hrest⟩
    · obtain ⟨hsource, rfl⟩ := List.cons.inj hrest
      exact .inl ⟨⟨source, hsource.symm⟩, hafter⟩
    · exact .inr ⟨before', source, after, hrest, hafter⟩
  · rintro (⟨⟨source, rfl⟩, hreset⟩ | ⟨before, source, after, rfl, hafter⟩)
    · exact ⟨[], source, commands, rfl, hreset⟩
    · exact ⟨command :: before, source, after, rfl, hafter⟩

namespace Session

/-- What a session shows. -/
def snapshot (session : Session) : Snapshot :=
  ⟨session.phase, session.tokens, session.cst?, session.ast?, session.result?⟩

/-! ## One command -/

/-- A session that is idle has nothing to show. -/
def Tidy (session : Session) : Prop := session.phase = .idle → session.snapshot = .idle

/-- A new session has nothing to show. -/
theorem tidy_new (adapter : Adapter) (reducer : Reducer) : (new adapter reducer).Tidy :=
  fun _ => rfl

/-- What each command does to the snapshot. -/
theorem snapshot_step {session : Session} (htidy : session.Tidy) (command : Command) :
    (session.step command).snapshot =
      match command with
      | .analyse source => .analysed (investigate session.adapter session.reducer source)
      | .reset => .idle
      | .setAdapter _ | .setReducer _ => session.snapshot := by
  cases command with
  | analyse source => rfl
  | reset =>
    cases hphase : session.phase with
    | idle => simpa [step, reset, hphase] using htidy hphase
    | analysed => simp [step, reset, hphase, clear, new, snapshot, Snapshot.idle]
  | setAdapter adapter => rfl
  | setReducer reducer => rfl

/-- An analysis gives a session something to show, a reset takes it away, and a replacement does
neither. -/
theorem phase_step (session : Session) (command : Command) :
    (session.step command).phase =
      match command with
      | .analyse _ => .analysed
      | .reset => .idle
      | .setAdapter _ | .setReducer _ => session.phase := by
  cases command with
  | analyse source => rfl
  | reset => cases hphase : session.phase <;> simp [step, reset, hphase, clear, new]
  | setAdapter adapter => rfl
  | setReducer reducer => rfl

/-- No command leaves something to show in a session that it makes idle. -/
theorem Tidy.step {session : Session} (htidy : session.Tidy) (command : Command) :
    (session.step command).Tidy := by
  intro hphase
  have hsnapshot := snapshot_step htidy command
  cases command with
  | analyse source => cases hphase
  | reset => exact hsnapshot
  | setAdapter adapter => exact htidy hphase
  | setReducer reducer => exact htidy hphase

/-- Only a command that puts an adapter in place changes the adapter. -/
theorem adapter_step (session : Session) (command : Command) :
    (session.step command).adapter = command.adapter?.getD session.adapter := by
  cases command with
  | analyse source => rfl
  | reset =>
    cases hphase : session.phase <;> simp [step, reset, hphase, clear, new, Command.adapter?]
  | setAdapter adapter => rfl
  | setReducer reducer => rfl

/-- Only a command that puts a reducer in place changes the reducer. -/
theorem reducer_step (session : Session) (command : Command) :
    (session.step command).reducer = command.reducer?.getD session.reducer := by
  cases command with
  | analyse source => rfl
  | reset =>
    cases hphase : session.phase <;> simp [step, reset, hphase, clear, new, Command.reducer?]
  | setAdapter adapter => rfl
  | setReducer reducer => rfl

/-! ## Some commands in turn -/

/-- Commands in two lists are done one list after the other. -/
theorem run_append (session : Session) (first second : List Command) :
    session.run (first ++ second) = (session.run first).run second := List.foldl_append

/-- However many commands are done, an idle session has nothing to show. -/
theorem Tidy.run {session : Session} (htidy : session.Tidy) (commands : List Command) :
    (session.run commands).Tidy := by
  induction commands generalizing session with
  | nil => exact htidy
  | cons command commands ih => exact ih (htidy.step command)

/-- What each command puts in place or leaves there, the last of them leaves in force. -/
theorem field_run {α : Type} {field : Session → α} {placed? : Command → Option α}
    (hstep : ∀ session command, field (step session command) =
      (placed? command).getD (field session))
    (session : Session) (commands : List Command) :
    field (session.run commands) = inForce placed? (field session) commands := by
  induction commands generalizing session with
  | nil => rfl
  | cons command commands ih =>
    rw [inForce_cons, ← hstep]
    exact ih (session.step command)

/-- A session has something to show after some commands exactly if they leave an analysis, or if it
had something before and no reset is among them. -/
theorem phase_run_iff (session : Session) (commands : List Command) :
    (session.run commands).phase = .analysed ↔
      session.phase = .analysed ∧ .reset ∉ commands ∨ LeavesAnalysis commands := by
  induction commands generalizing session with
  | nil => simp [run, LeavesAnalysis]
  | cons command commands ih =>
    have hrun : session.run (command :: commands) = (session.step command).run commands := rfl
    rw [hrun, ih, phase_step, leavesAnalysis_cons]
    cases command with
    | analyse source =>
      have hreset : .reset ∉ .analyse source :: commands ↔ .reset ∉ commands := by simp
      rw [hreset]
      grind
    | reset => simp
    | setAdapter adapter => simp
    | setReducer reducer => simp

/-- Replacements change nothing that a session shows. -/
theorem snapshot_run_of_kept {session : Session} (htidy : session.Tidy) {commands : List Command}
    (hanalyse : ∀ source, .analyse source ∉ commands) (hreset : .reset ∉ commands) :
    (session.run commands).snapshot = session.snapshot := by
  induction commands generalizing session with
  | nil => rfl
  | cons command commands ih =>
    have hrest := ih (htidy.step command) (fun source h => hanalyse source (.tail _ h))
      (fun h => hreset (.tail _ h))
    have hstep := snapshot_step htidy command
    cases command with
    | analyse source => exact absurd (.head _) (hanalyse source)
    | reset => exact absurd (.head _) hreset
    | setAdapter adapter => exact hrest.trans hstep
    | setReducer reducer => exact hrest.trans hstep

/-- Without an analysis, a session that shows nothing goes on to show nothing. -/
theorem snapshot_run_of_idle {session : Session} (htidy : session.Tidy)
    (hidle : session.snapshot = .idle) {commands : List Command}
    (hanalyse : ∀ source, .analyse source ∉ commands) :
    (session.run commands).snapshot = .idle := by
  induction commands generalizing session with
  | nil => exact hidle
  | cons command commands ih =>
    have hstep := snapshot_step htidy command
    apply ih (htidy.step command) _ (fun source h => hanalyse source (.tail _ h))
    cases command with
    | analyse source => exact absurd (.head _) (hanalyse source)
    | reset => exact hstep
    | setAdapter adapter => exact hstep.trans hidle
    | setReducer reducer => exact hstep.trans hidle

/-- Without an analysis, a reset is final. -/
theorem snapshot_run_of_reset {session : Session} (htidy : session.Tidy) {commands : List Command}
    (hanalyse : ∀ source, .analyse source ∉ commands) (hreset : .reset ∈ commands) :
    (session.run commands).snapshot = .idle := by
  obtain ⟨before, after, rfl⟩ := List.append_of_mem hreset
  rw [run_append]
  have htidy' := htidy.run before
  apply snapshot_run_of_idle (htidy'.step .reset) (snapshot_step htidy' .reset)
  intro source h
  exact hanalyse source (List.mem_append_right _ (.tail _ h))

/-- After an analysis, a session shows what the stages in force at that moment have found. -/
theorem snapshot_run_analyse (adapter : Adapter) (reducer : Reducer) (before : List Command)
    (source : String) :
    (((new adapter reducer).run before).step (.analyse source)).snapshot =
      .analysed (investigate (inForce Command.adapter? adapter before)
        (inForce Command.reducer? reducer before) source) := by
  have hadapter : ((new adapter reducer).run before).adapter =
      inForce Command.adapter? adapter before := field_run adapter_step _ before
  have hreducer : ((new adapter reducer).run before).reducer =
      inForce Command.reducer? reducer before := field_run reducer_step _ before
  rw [snapshot_step ((tidy_new adapter reducer).run before), hadapter, hreducer]

/-- A session that has been reached from a new one shows nothing, or it shows its last analysis,
which no reset has followed. -/
theorem snapshot_run_cases (adapter : Adapter) (reducer : Reducer) (commands : List Command) :
    ((new adapter reducer).run commands).snapshot = .idle ∨
      ∃ before source after, commands = before ++ .analyse source :: after ∧
        (∀ later, .analyse later ∉ after) ∧ .reset ∉ after ∧
        ((new adapter reducer).run commands).snapshot = .analysed
          (investigate (inForce Command.adapter? adapter before)
            (inForce Command.reducer? reducer before) source) := by
  rcases exists_last_analyse commands with hnone | ⟨before, source, after, rfl, hafter⟩
  · exact .inl (snapshot_run_of_idle (tidy_new adapter reducer) rfl hnone)
  · have htidy := ((tidy_new adapter reducer).run before).step (.analyse source)
    by_cases hreset : .reset ∈ after
    · left
      rw [run_append]
      exact snapshot_run_of_reset htidy hafter hreset
    · right
      refine ⟨before, source, after, rfl, hafter, hreset, ?_⟩
      rw [run_append, ← snapshot_run_analyse]
      exact snapshot_run_of_kept htidy hafter hreset

end Session

/-- A session is coherent after any commands. It has something to show exactly if an analysis is
among them that no reset follows. It is idle exactly if it has no result, and then it has no tokens
and no trees. Otherwise its result holds its tokens and the written forms of the
trees that it has, there is an abstract tree only beside a concrete one, the analysis succeeded
exactly if it left no diagnostic, and tokens, trees and diagnostics are those with which the last
analysis ended, run by the adapter and the reducer that were in force. -/
theorem run_new_coherent (adapter : Adapter) (reducer : Reducer) (commands : List Command) :
    let session := (Session.new adapter reducer).run commands
    (session.phase = .analysed ↔
      ∃ before source after, commands = before ++ .analyse source :: after ∧ .reset ∉ after) ∧
    (session.phase = .idle ↔ session.result? = none) ∧
    (session.phase = .idle → session.tokens = [] ∧ session.cst? = none ∧ session.ast? = none) ∧
    (session.phase = .analysed →
      ∃ result, session.result? = some result ∧
        result.tokens = session.tokens ∧
        (session.ast?.isSome → session.cst?.isSome) ∧
        (result.lisp, result.cstDrawing) =
          session.cst?.elim ("", "") (fun tree => (tree.toLisp, Dot.drawCst tree)) ∧
        result.astDrawing = session.ast?.elim "" Dot.drawAst ∧
        (result.success = true ↔ result.diagnostics = []) ∧
        ∃ before source after, commands = before ++ .analyse source :: after ∧
          (∀ later, .analyse later ∉ after) ∧ .reset ∉ after ∧
          Ending (inForce Command.adapter? adapter before)
            (inForce Command.reducer? reducer before) source
            ⟨session.tokens, session.cst?, session.ast?, result.diagnostics⟩) := by
  intro session
  have hleaves : session.phase = .analysed ↔ LeavesAnalysis commands := by
    rw [Session.phase_run_iff]
    exact or_iff_right (fun h => nomatch h.1)
  refine ⟨hleaves, ?_⟩
  rcases Session.snapshot_run_cases adapter reducer commands with
    hidle | ⟨before, source, after, hcommands, hafter, hreset, hanalysed⟩
  · have hphase : session.phase = .idle := congrArg Snapshot.phase hidle
    have hresult : session.result? = none := congrArg Snapshot.result? hidle
    refine ⟨by simp [hphase, hresult], fun _ => ⟨?_, ?_, ?_⟩, by simp [hphase]⟩
    · exact congrArg Snapshot.tokens hidle
    · exact congrArg Snapshot.cst? hidle
    · exact congrArg Snapshot.ast? hidle
  · obtain ⟨found, hfound⟩ : ∃ found, found =
      investigate (inForce Command.adapter? adapter before)
        (inForce Command.reducer? reducer before) source := ⟨_, rfl⟩
    have hending := ending_investigate (inForce Command.adapter? adapter before)
      (inForce Command.reducer? reducer before) source
    rw [← hfound] at hanalysed hending
    have hphase : session.phase = .analysed := congrArg Snapshot.phase hanalysed
    have htokens : session.tokens = found.tokens := congrArg Snapshot.tokens hanalysed
    have hcst : session.cst? = found.cst? := congrArg Snapshot.cst? hanalysed
    have hast : session.ast? = found.ast? := congrArg Snapshot.ast? hanalysed
    have hresult : session.result? = some found.result := congrArg Snapshot.result? hanalysed
    refine ⟨by simp [hphase, hresult], by simp [hphase], fun _ => ⟨found.result, hresult, ?_⟩⟩
    rw [htokens, hcst, hast]
    refine ⟨rfl, hending.isSome_cst, ?_, rfl, ?_, before, source, after, hcommands, hafter, hreset,
      hending⟩
    · cases hsome : found.cst? <;> simp [Findings.result, hsome]
    · simp [Findings.result]

/-- A session has no memory. If no analysis is among the commands, or a reset comes after the last
one, it shows what it showed at first. Otherwise it shows what a new session shows after this one
analysis, with the adapter and the reducer that were in force at that moment; neither what
happened before the analysis nor the replacements after it make a difference. -/
theorem snapshot_run_new (adapter : Adapter) (reducer : Reducer) (commands : List Command) :
    let shown := ((Session.new adapter reducer).run commands).snapshot
    ((∀ source, .analyse source ∉ commands) →
      shown = (Session.new adapter reducer).snapshot) ∧
    ∀ before source after, commands = before ++ .analyse source :: after →
      (∀ later, .analyse later ∉ after) →
      (.reset ∈ after → shown = (Session.new adapter reducer).snapshot) ∧
      (.reset ∉ after →
        shown = ((Session.new (inForce Command.adapter? adapter before)
          (inForce Command.reducer? reducer before)).run [.analyse source]).snapshot) := by
  intro shown
  have htidy := Session.tidy_new adapter reducer
  refine ⟨Session.snapshot_run_of_idle htidy rfl, ?_⟩
  rintro before source after rfl hafter
  have htidy' := (htidy.run before).step (.analyse source)
  have hshown : shown = ((((Session.new adapter reducer).run before).step
      (.analyse source)).run after).snapshot := by
    exact congrArg Session.snapshot (Session.run_append _ _ _)
  rw [hshown]
  constructor
  · exact Session.snapshot_run_of_reset htidy' hafter
  · intro hreset
    rw [Session.snapshot_run_of_kept htidy' hafter hreset, Session.snapshot_run_analyse]
    rfl

end CrateAnalysis
