import CrateAnalysis.Analysis.Result

/-!
# Sessions

A session holds an adapter, a reducer and what the last analysis found. It is idle until the
first analysis and after a reset. Replacing the adapter or the reducer changes nothing that
was found. Every analysis starts from nothing, so none sees an earlier one.

`Session.step` does one command and `Session.run` a list of them.
-/

set_option autoImplicit false

namespace CrateAnalysis

/-- Whether a session has an analysis to show. -/
inductive Phase
  | idle
  | analysed
deriving DecidableEq

/-- The name of a phase. -/
def Phase.name : Phase → String
  | idle => "idle"
  | analysed => "analyzed"

/-- A session with the outcome of its last analysis. -/
structure Session where
  adapter : Adapter
  reducer : Reducer
  phase : Phase
  tokens : List Token
  cst? : Option Cst
  ast? : Option Ast
  result? : Option AnalysisResult

/-- What can be done to a session. -/
inductive Command
  | analyse (source : String)
  | reset
  | setAdapter (adapter : Adapter)
  | setReducer (reducer : Reducer)

namespace Session

/-- A session that has analysed nothing. -/
def new (adapter : Adapter) (reducer : Reducer) : Session :=
  ⟨adapter, reducer, .idle, [], none, none, none⟩

/-- Forgets the last analysis. -/
def clear (session : Session) : Session := new session.adapter session.reducer

/-- Analyses a source text from nothing. -/
def analyse (session : Session) (source : String) : Session :=
  let found := investigate session.adapter session.reducer source
  { session.clear with
    phase := .analysed
    tokens := found.tokens
    cst? := found.cst?
    ast? := found.ast?
    result? := some found.result }

/-- Forgets the last analysis, if there is one. -/
def reset (session : Session) : Session :=
  match session.phase with
  | .idle => session
  | .analysed => session.clear

/-- Does one command. -/
def step (session : Session) : Command → Session
  | .analyse source => session.analyse source
  | .reset => session.reset
  | .setAdapter adapter => { session with adapter }
  | .setReducer reducer => { session with reducer }

/-- Does some commands in turn. -/
def run (session : Session) (commands : List Command) : Session := commands.foldl step session

/-- A session before any command and after each. -/
def history (session : Session) : List Command → List Session
  | [] => [session]
  | command :: commands => session :: (session.step command).history commands

end Session

end CrateAnalysis
