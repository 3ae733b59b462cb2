import L20n.Diagnostic
import L20n.Monitor
import L20n.Node

/-!
Walking a tree from a node downwards, children in order, under a depth guard and on a
stack.  Handlers are tied to kinds of node by name: a hook is told about the node, a
stop keeps the walk out of it.
-/

namespace L20n

/-- The kinds that have a hook or a stop. -/
structure Handlers where
  hooked : List String := []
  stopped : List String := []
  /-- Visiting as a whole is overridden too, to see every node that is visited. -/
  observed : Bool := false

namespace Handlers

def hooks (handlers : Handlers) (kind : Kind) : Bool :=
  handlers.hooked.contains kind.label

def stops (handlers : Handlers) (kind : Kind) : Bool :=
  handlers.stopped.contains kind.label

def table (handlers : Handlers) : List String :=
  let names := handlers.hooked ++ handlers.stopped
  (names.mergeSort fun a b => decide (a ≤ b)).eraseDups

/-- The calls that lead from a visit to the children of the node: that of visiting and
what overrides it, that of the handler, and that of the general visit unless the handler
is a stop. -/
def frames (handlers : Handlers) (kind : Kind) : Nat :=
  (if handlers.observed then 2 else 1) +
    if !handlers.stops kind && handlers.hooks kind then 2 else 1

end Handlers

/-- What a walk does at a node, with the number of levels entered before. -/
inductive Visit where
  | visited (node : Node) (depth : Int)
  | hooked (node : Node) (depth : Int)

/-- What visiting a node answers: the node itself, or the word of a stop. -/
inductive Answer where
  | node
  | stopped
  deriving DecidableEq, Repr

inductive WalkError where
  | tooDeep (refusal : Refusal Window)
  | stackFull

abbrev Walker := Monitored WalkError (List Visit) Window

namespace Walker

def note (visit : Int → Visit) : Walker Unit :=
  modify fun s => { s with data := s.data ++ [visit s.guard.depth] }

def calls {α : Type} (n : Nat) (walker : Walker α) : Walker α :=
  inCalls .stackFull n walker

/-- Walks one level further in.  What is there is found two calls further in, and these
have come back when it is walked. -/
def nested (walker : Walker Unit) : Walker Unit :=
  inLevel .stackFull .tooDeep (fun _ => none) do
    calls 2 (pure ())
    walker

/-- Visits a node, and its children unless the kind is stopped. -/
def visit (handlers : Handlers) (node : Node) : Walker Answer := do
  note (.visited node)
  calls (handlers.frames node.kind) do
    if handlers.stops node.kind then
      return .stopped
    else
      if handlers.hooks node.kind then note (.hooked node)
      nested (node.children.attach.forM fun child => do
        let _ ← visit handlers child.1)
      return .node
termination_by sizeOf node.outline
decreasing_by exact Node.outline_lt child.2

def visitAll (handlers : Handlers) (nodes : List Node) : Walker Unit :=
  nodes.forM fun node => do
    let _ ← visit handlers node

theorem forM_attach_visit (handlers : Handlers) (nodes : List Node) :
    (nodes.attach.forM fun child => do
      let _ ← visit handlers child.1 : Walker Unit) = visitAll handlers nodes := by
  have hmap := List.forM_map (l := nodes.attach) (g := Subtype.val)
    (f := fun node => (do let _ ← visit handlers node : Walker Unit))
  rw [List.attach_map_subtype_val] at hmap
  exact hmap.symm

end Walker

structure Walk where
  outcome : Except WalkError Answer
  visits : List Visit
  guard : DepthGuard Window

/-- Walks a node under a guard that may have been used before. -/
def Node.walkUnder (node : Node) (monitor : Option Monitor) (handlers : Handlers)
    (guard : DepthGuard Window) : Walk :=
  match Walker.visit handlers node monitor ⟨[], guard⟩ with
  | .ok answer s => ⟨.ok answer, s.data, s.guard⟩
  | .error e s => ⟨.error e, s.data, s.guard⟩

/-- Walks a node on a stack without end. -/
def Node.walk (node : Node) (handlers : Handlers) (guard : DepthGuard Window) : Walk :=
  node.walkUnder none handlers guard

end L20n
