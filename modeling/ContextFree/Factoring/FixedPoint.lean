import ContextFree.Factoring.Pass

/-!
# Factoring to a fixed point

The alternatives of a fresh symbol may begin alike in turn. They are factored as well, and those of
the symbols which that makes, until there is nothing left to factor. The symbols wait in a queue.

Each fresh symbol takes up room in the vocabulary and joins the queue once, so the room and the
length of the queue together go down by one with each symbol taken from the queue.
-/

namespace ContextFree

namespace Factoring

/-- Left-factors each symbol of a queue and joins the fresh symbols to it, until the queue is empty.
A symbol with nothing to factor is passed over; any other refusal ends the run. The answer is all
fresh symbols. -/
def drain (o : Options) (queue : List Symbol) (w : Workspace) :
    Outcome Workspace (Except Refusal (List Symbol)) :=
  match queue with
  | [] => .ok (.ok []) w
  | s :: rest =>
    match h : factor o s (w.report (.revisited (w.vocabulary.displayName s))) with
    | .ok (.ok fresh) w' =>
      have := room_of_factor h
      match drain o (rest ++ fresh) w' with
      | .ok later w'' => .ok (later.map (fresh ++ ·)) w''
      | .error e w'' => .error e w''
    | .ok (.error (.nothingToFactor _)) w' =>
      have := eq_of_factor_refused h
      drain o rest w'
    | .ok (.error r) w' => .ok (.error r) w'
    | .error e w' => .error e w'
termination_by w.room + queue.length
decreasing_by
  · simp_all only [Workspace.room_report, List.length_append, List.length_cons]
    omega
  · simp_all only [Workspace.room_report, List.length_cons]
    omega

/-- Left-factors `s`, and then every symbol introduced in the process, until there is nothing left
to factor. The answer is the fresh symbols. -/
def factorFully (o : Options) (s : Symbol) : Action Workspace (Except Refusal (List Symbol)) := do
  match ← factor o s with
  | .error r => return .error r
  | .ok fresh => return (← drain o fresh).map (fresh ++ ·)

/-- Left-factors each symbol of a list fully and passes over those that are refused. The answer is
the fresh symbols. -/
def factorEach (o : Options) : List Symbol → Action Workspace (List Symbol)
  | [] => return []
  | s :: rest => do
    let fresh ← factorFully o s
    let later ← factorEach o rest
    return fresh.toOption.getD [] ++ later

/-- Left-factors every nonterminal that the grammar has at the start. The answer is the fresh
symbols. -/
def factorAll (o : Options) : Action Workspace (List Symbol) := do
  factorEach o (← get).grammar.nonterminals

end Factoring

end ContextFree
