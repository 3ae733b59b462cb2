import L20n.Proofs.Options
import L20n.Walk

/-!
The way of a walk.  The tour from a node is its preorder, children in the order of the
source and nothing below the kinds that are stopped at, each node with its distance from
the start and the frames in use when it is visited.  A walk follows the tour: it visits
the nodes one by one, and the first node beyond which it does not get is the last one
visited.  On a stack without end this is the first whose level is refused, and hooks
change nothing.  A stack that ends may be full before, and then the frames that a hook
takes matter too.
-/

namespace L20n

open Node

/-- The nodes from a node downwards with their distances, each before its children,
without those below a kind that is stopped at. -/
def Node.preorder (stops : Kind → Bool) (distance : Int) (node : Node) :
    List (Node × Int) :=
  (node, distance) ::
    if stops node.kind then []
    else node.children.attach.flatMap fun child => child.1.preorder stops (distance + 1)
termination_by sizeOf node.outline
decreasing_by exact outline_lt child.2

theorem Node.preorder_eq (stops : Kind → Bool) (distance : Int) (node : Node) :
    node.preorder stops distance = (node, distance) ::
      if stops node.kind then []
      else node.children.flatMap (preorder stops (distance + 1)) := by
  rw [preorder]
  simp only [List.flatMap_subtype, List.unattach_attach]

/-- The node asks for a level past the limit. -/
def Node.Refused (stops : Kind → Bool) (limit : Int) (place : Node × Int) : Prop :=
  stops place.1.kind = false ∧ limit ≤ place.2

/-- A node of the preorder, with the frames in use when it is visited. -/
structure Station where
  node : Node
  distance : Int
  frames : Nat

def Node.tour (handlers : Handlers) (distance : Int) (frames : Nat) (node : Node) :
    List Station :=
  ⟨node, distance, frames⟩ ::
    if handlers.stops node.kind then []
    else node.children.attach.flatMap fun child =>
      child.1.tour handlers (distance + 1) (frames + handlers.frames node.kind)
termination_by sizeOf node.outline
decreasing_by exact outline_lt child.2

theorem Node.tour_eq (handlers : Handlers) (distance : Int) (frames : Nat)
    (node : Node) :
    node.tour handlers distance frames = ⟨node, distance, frames⟩ ::
      if handlers.stops node.kind then []
      else node.children.flatMap
        (tour handlers (distance + 1) (frames + handlers.frames node.kind)) := by
  rw [tour]
  simp only [List.flatMap_subtype, List.unattach_attach]

namespace Station

def place (station : Station) : Node × Int :=
  (station.node, station.distance)

/-- All that is noted down at a station: the visit, and the call of a hook. -/
def marks (handlers : Handlers) (station : Station) : List Visit :=
  .visited station.node station.distance ::
    if handlers.stops station.node.kind then []
    else if handlers.hooks station.node.kind then
      [.hooked station.node station.distance]
    else []

/-- The frames in use when the children of the station are visited. -/
def inside (handlers : Handlers) (station : Station) : Nat :=
  station.frames + handlers.frames station.node.kind

/-- Why a walk does not get beyond a station, if it does not: a call of the visit is
broken off, the level of the node is refused, or a call that builds the error of the
refusal or finds the children is broken off. -/
def fault? (handlers : Handlers) (monitor : Option Monitor) (limit : Int)
    (station : Station) : Option WalkError :=
  if Monitor.breaksOff monitor (station.inside handlers) station.distance then
    some .stackFull
  else if handlers.stops station.node.kind then none
  else if limit ≤ station.distance then
    some (if Monitor.breaksOff monitor (station.inside handlers + Monitor.refusing)
      station.distance then .stackFull else .tooDeep ⟨limit, none⟩)
  else if Monitor.breaksOff monitor (station.inside handlers + 2) (station.distance + 1)
    then some .stackFull
  else none

/-- What is noted down at a station beyond which the walk does not get. -/
def lastMarks (handlers : Handlers) (monitor : Option Monitor) (station : Station) :
    List Visit :=
  if Monitor.breaksOff monitor (station.inside handlers) station.distance then
    [.visited station.node station.distance]
  else station.marks handlers

end Station

/-- The node and the depth of a visit, unless it is the call of a hook. -/
def Visit.place? : Visit → Option (Node × Int)
  | visited node depth => some (node, depth)
  | hooked _ _ => none

/-- The nodes that were visited, with their depths. -/
def Walk.seen (walk : Walk) : List (Node × Int) :=
  walk.visits.filterMap Visit.place?

/-- What visiting a node answers when the walk comes to its end. -/
def Node.answer (stops : Kind → Bool) (node : Node) : Answer :=
  if stops node.kind then .stopped else .node

section Stations

variable {handlers : Handlers} {monitor : Option Monitor} {limit : Int}

theorem Node.map_place_tour (handlers : Handlers) (node : Node) (distance : Int)
    (frames : Nat) :
    (node.tour handlers distance frames).map Station.place =
      node.preorder handlers.stops distance := by
  induction node using Node.induct generalizing distance frames with
  | h node ih =>
      rw [tour_eq, preorder_eq, List.map_cons]
      cases handlers.stops node.kind with
      | true => rfl
      | false =>
          simp only [Bool.false_eq_true, if_false, List.map_flatMap]
          congr 1
          exact List.flatMap_congr fun child hchild => ih child hchild _ _

theorem Station.filterMap_marks (station : Station) :
    (station.marks handlers).filterMap Visit.place? = [station.place] := by
  rw [marks]
  split
  · rfl
  · split <;> rfl

theorem Station.filterMap_lastMarks (station : Station) :
    (station.lastMarks handlers monitor).filterMap Visit.place? = [station.place] := by
  rw [lastMarks]
  split
  · rfl
  · exact station.filterMap_marks

theorem Station.filterMap_flatMap_marks (route : List Station) :
    (route.flatMap (marks handlers)).filterMap Visit.place? = route.map place := by
  induction route with
  | nil => rfl
  | cons station route ih =>
      rw [List.flatMap_cons, List.filterMap_append, station.filterMap_marks, ih]
      rfl

/-- On a stack without end only refused levels are in the way. -/
theorem Station.fault?_none (station : Station) :
    station.fault? handlers none limit = none ↔
      ¬ Refused handlers.stops limit station.place := by
  by_cases hstop : handlers.stops station.node.kind = true <;>
    simp [fault?, Monitor.breaksOff, Refused, place, hstop]

theorem Station.fault?_none_of_refused {station : Station}
    (h : Refused handlers.stops limit station.place) :
    station.fault? handlers none limit = some (.tooDeep ⟨limit, none⟩) := by
  obtain ⟨hstop, hlimit⟩ := h
  change handlers.stops station.node.kind = false at hstop
  change limit ≤ station.distance at hlimit
  simp [fault?, Monitor.breaksOff, hstop, hlimit]

end Stations

namespace Station

/-- The visits made along a route, behind those that were made before, and why the walk
does not get to the end of the route, if it does not. -/
def along (handlers : Handlers) (monitor : Option Monitor) (limit : Int) :
    List Station → List Visit → List Visit × Option WalkError
  | [], visits => (visits, none)
  | station :: route, visits =>
    match station.fault? handlers monitor limit with
    | some e => (visits ++ station.lastMarks handlers monitor, some e)
    | none => along handlers monitor limit route (visits ++ station.marks handlers)

section Along

variable {handlers : Handlers} {monitor : Option Monitor} {limit : Int}
  {route more : List Station} {visits : List Visit}

theorem along_append : along handlers monitor limit (route ++ more) visits =
    match along handlers monitor limit route visits with
    | (visits, some e) => (visits, some e)
    | (visits, none) => along handlers monitor limit more visits := by
  induction route generalizing visits with
  | nil => rfl
  | cons station route ih =>
      rw [List.cons_append, along, along]
      cases station.fault? handlers monitor limit with
      | some e => rfl
      | none => exact ih

theorem along_of_open
    (h : ∀ station ∈ route, station.fault? handlers monitor limit = none) :
    along handlers monitor limit route visits =
      (visits ++ route.flatMap (marks handlers), none) := by
  induction route generalizing visits with
  | nil => rw [along, List.flatMap_nil, List.append_nil]
  | cons station route ih =>
      obtain ⟨hstation, hroute⟩ := List.forall_mem_cons.1 h
      simp only [along, hstation, ih hroute, List.flatMap_cons, List.append_assoc]

theorem along_of_fault {before after : List Station} {station : Station} {e : WalkError}
    (hbefore : ∀ earlier ∈ before, earlier.fault? handlers monitor limit = none)
    (hstation : station.fault? handlers monitor limit = some e) :
    along handlers monitor limit (before ++ station :: after) visits =
      (visits ++ (before.flatMap (marks handlers) ++ station.lastMarks handlers monitor),
        some e) := by
  simp only [along_append, along_of_open hbefore, along, hstation, List.append_assoc]

theorem along_flatMap_congr {monitor' : Option Monitor} {nodes : List Node}
    {first second : Node → List Station}
    (h : ∀ node ∈ nodes, ∀ visits, along handlers monitor limit (first node) visits =
      along handlers monitor' limit (second node) visits) :
    along handlers monitor limit (nodes.flatMap first) visits =
      along handlers monitor' limit (nodes.flatMap second) visits := by
  induction nodes generalizing visits with
  | nil => rfl
  | cons node nodes ih =>
      obtain ⟨hnode, hnodes⟩ := List.forall_mem_cons.1 h
      rw [List.flatMap_cons, List.flatMap_cons, along_append, along_append, hnode]
      rcases along handlers monitor' limit (second node) visits with ⟨made, none | e⟩
      · exact ih hnodes
      · rfl

end Along

end Station

namespace Walker

variable {α β : Type} {handlers : Handlers} {monitor : Option Monitor} {depth : Int}
  {frames : Nat} {route more : List Station} {a : α} {b : β}

/-- How a walker ends that makes these visits: with its answer, or at an error.  Its guard
is as before. -/
def ending (a : α) (limit depth : Int) : List Visit × Option WalkError →
    EStateM.Result WalkError (Guarded (List Visit) Window) α
  | (visits, none) => .ok a ⟨visits, guardAt limit depth⟩
  | (visits, some e) => .error e ⟨visits, guardAt limit depth⟩

/-- From this depth, with these frames in use, the walker makes the visits of a route and
comes to this answer. -/
def Follows (handlers : Handlers) (monitor : Option Monitor) (depth : Int) (frames : Nat)
    (route : List Station) (a : α) (x : Walker α) : Prop :=
  ∀ (visits : List Visit) (limit : Int),
    x (Monitor.atFrames monitor frames) ⟨visits, guardAt limit depth⟩ =
      ending a limit depth (Station.along handlers monitor limit route visits)

theorem follows_pure (a : α) : Follows handlers monitor depth frames [] a (pure a) :=
  fun _ _ => rfl

theorem Follows.bind {x : Walker α} {f : α → Walker β}
    (hx : Follows handlers monitor depth frames route a x)
    (hf : Follows handlers monitor depth frames more b (f a)) :
    Follows handlers monitor depth frames (route ++ more) b (x >>= f) := by
  intro visits limit
  have hfirst := hx visits limit
  rw [Station.along_append]
  simp only [Bind.bind, ReaderT.bind, EStateM.bind, hfirst]
  rcases Station.along handlers monitor limit route visits with ⟨made, none | e⟩
  · exact hf made limit
  · rfl

theorem calls_eq (n : Nat) (x : Walker α) (visits : List Visit) (limit : Int) :
    calls n x (Monitor.atFrames monitor frames) ⟨visits, guardAt limit depth⟩ =
      if Monitor.breaksOff monitor (frames + n) depth then
        .error .stackFull ⟨visits, guardAt limit depth⟩
      else x (Monitor.atFrames monitor (frames + n)) ⟨visits, guardAt limit depth⟩ := by
  cases monitor <;> rfl

theorem note_bind (visit : Int → Visit) (x : Walker α) (visits : List Visit)
    (limit : Int) :
    (note visit >>= fun _ => x) monitor ⟨visits, guardAt limit depth⟩ =
      x monitor ⟨visits ++ [visit depth], guardAt limit depth⟩ :=
  rfl

/-- What is done at a node before its children are walked. -/
theorem visit_eq (handlers : Handlers) (node : Node) (visits : List Visit)
    (limit : Int) :
    let station : Station := ⟨node, depth, frames⟩
    visit handlers node (Monitor.atFrames monitor frames) ⟨visits, guardAt limit depth⟩ =
      if Monitor.breaksOff monitor (station.inside handlers) depth then
        .error .stackFull ⟨visits ++ [.visited node depth], guardAt limit depth⟩
      else if handlers.stops node.kind then
        .ok .stopped ⟨visits ++ station.marks handlers, guardAt limit depth⟩
      else
        (nested (visitAll handlers node.children) >>= fun _ => pure Answer.node)
          (Monitor.atFrames monitor (station.inside handlers))
          ⟨visits ++ station.marks handlers, guardAt limit depth⟩ := by
  rw [visit, note_bind, calls_eq, forM_attach_visit]
  refine if_congr Iff.rfl rfl ?_
  rw [Station.marks, Station.inside]
  by_cases hstop : handlers.stops node.kind = true
  · simp only [hstop, if_true]
    rfl
  by_cases hhook : handlers.hooks node.kind = true
  · simp only [if_neg hstop, if_pos hhook]
    rw [note_bind, List.append_assoc, List.singleton_append]
  · simp only [if_neg hstop, if_neg hhook]

section Nested

variable {x : Walker Unit} {visits : List Visit} {limit : Int}

theorem nested_of_le (h : limit ≤ depth) :
    nested x (Monitor.atFrames monitor frames) ⟨visits, guardAt limit depth⟩ =
      .error (if Monitor.breaksOff monitor (frames + Monitor.refusing) depth then .stackFull
        else .tooDeep ⟨limit, none⟩) ⟨visits, guardAt limit depth⟩ := by
  rw [Walker.nested, guardAt, inLevel_of_le h]
  cases monitor with
  | none => rfl
  | some monitor => exact (apply_ite (EStateM.Result.error · _) ..).symm

/-- Inside a level that is not refused, the calls that find the children come first. -/
theorem nested_of_lt (h : depth < limit) :
    nested x (Monitor.atFrames monitor frames) ⟨visits, guardAt limit depth⟩ =
      if Monitor.breaksOff monitor (frames + 2) (depth + 1) then
        .error .stackFull ⟨visits, guardAt limit depth⟩
      else match x (Monitor.atFrames monitor frames)
          ⟨visits, guardAt limit (depth + 1)⟩ with
        | .ok a s => .ok a { s with guard := s.guard.exit }
        | .error e s => .error e { s with guard := s.guard.exit } := by
  have hcalls := @calls_eq Unit monitor (depth + 1) frames 2 (pure ()) visits limit
  simp only [guardAt] at hcalls
  rw [Walker.nested, guardAt, inLevel_of_lt h]
  simp only [Bind.bind, ReaderT.bind, EStateM.bind, hcalls, guardAt]
  by_cases hbroken : Monitor.breaksOff monitor (frames + 2) (depth + 1) = true
  · simp [hbroken, DepthGuard.exit]
  · simp only [if_neg hbroken, pure, ReaderT.pure, EStateM.pure]
    cases x (Monitor.atFrames monitor frames) ⟨visits, ⟨limit, depth + 1, none⟩⟩ <;> rfl

theorem nested_of_follows (h : depth < limit)
    (hbroken : Monitor.breaksOff monitor (frames + 2) (depth + 1) = false)
    (hx : Follows handlers monitor (depth + 1) frames route () x) :
    (nested x >>= fun _ => pure a) (Monitor.atFrames monitor frames)
        ⟨visits, guardAt limit depth⟩ =
      ending a limit depth (Station.along handlers monitor limit route visits) := by
  simp only [Bind.bind, ReaderT.bind, EStateM.bind, nested_of_lt h, hbroken,
    Bool.false_eq_true, if_false, hx visits limit]
  rcases Station.along handlers monitor limit route visits with ⟨made, none | e⟩
  · simp [ending, guardAt, DepthGuard.exit]
    rfl
  · simp [ending, guardAt, DepthGuard.exit]

end Nested

/-- A node is the first station, and unless it is stopped at, the level that it asks
for leads to the stations of its children. -/
theorem follows_visit_of_children (node : Node)
    (h : Follows handlers monitor (depth + 1) (frames + handlers.frames node.kind)
      (node.children.flatMap (tour handlers (depth + 1)
        (frames + handlers.frames node.kind))) () (visitAll handlers node.children)) :
    Follows handlers monitor depth frames (node.tour handlers depth frames)
      (node.answer handlers.stops) (visit handlers node) := by
  intro visits limit
  rw [visit_eq, tour_eq, Station.along, Station.fault?, Station.lastMarks, Node.answer]
  -- The faults of the station come in this order, and those of its children last.
  by_cases hbroken : Monitor.breaksOff monitor
      (Station.inside handlers ⟨node, depth, frames⟩) depth = true
  · simp only [if_pos hbroken]
    rfl
  simp only [if_neg hbroken]
  by_cases hstop : handlers.stops node.kind = true
  · simp only [if_pos hstop]
    rfl
  simp only [if_neg hstop]
  by_cases hlimit : limit ≤ depth
  · simp only [if_pos hlimit, Bind.bind, ReaderT.bind, EStateM.bind, nested_of_le hlimit]
    rfl
  simp only [if_neg hlimit]
  by_cases hlisted : Monitor.breaksOff monitor
      (Station.inside handlers ⟨node, depth, frames⟩ + 2) (depth + 1) = true
  · simp only [if_pos hlisted, Bind.bind, ReaderT.bind, EStateM.bind,
      nested_of_lt (Int.not_le.1 hlimit)]
    rfl
  · simp only [if_neg hlisted]
    exact nested_of_follows (Int.not_le.1 hlimit) (Bool.eq_false_iff.2 hlisted) h

theorem follows_visitAll {nodes : List Node}
    (h : ∀ node ∈ nodes, Follows handlers monitor depth frames
      (node.tour handlers depth frames) (node.answer handlers.stops)
      (visit handlers node)) :
    Follows handlers monitor depth frames (nodes.flatMap (tour handlers depth frames)) ()
      (visitAll handlers nodes) := by
  induction nodes with
  | nil => exact follows_pure ()
  | cons node nodes ih =>
      obtain ⟨hnode, hnodes⟩ := List.forall_mem_cons.1 h
      have hfirst : Follows handlers monitor depth frames (node.tour handlers depth frames)
          () (visit handlers node >>= fun _ => pure ()) := by
        rw [← List.append_nil (node.tour handlers depth frames)]
        exact hnode.bind (follows_pure ())
      exact hfirst.bind (ih hnodes)

/-- A walk from a node follows its tour. -/
theorem follows_visit (handlers : Handlers) (monitor : Option Monitor) (node : Node)
    (depth : Int) (frames : Nat) :
    Follows handlers monitor depth frames (node.tour handlers depth frames)
      (node.answer handlers.stops) (visit handlers node) := by
  induction node using Node.induct generalizing depth frames with
  | h node ih =>
      apply follows_visit_of_children
      exact follows_visitAll fun child hchild => ih child hchild _ _

end Walker

section Walks

variable {node : Node} {handlers : Handlers} {monitor : Option Monitor}
  {limit depth : Int}

/-- A walk makes the visits along its tour, and its guard is as before. -/
theorem Node.walkUnder_eq (node : Node) (handlers : Handlers) (monitor : Option Monitor)
    (limit depth : Int) :
    node.walkUnder monitor handlers (guardAt limit depth) =
      match Station.along handlers monitor limit
        (node.tour handlers depth (Monitor.inUse monitor)) [] with
      | (visits, none) => ⟨.ok (node.answer handlers.stops), visits, guardAt limit depth⟩
      | (visits, some e) => ⟨.error e, visits, guardAt limit depth⟩ := by
  have hfollows := Walker.follows_visit handlers monitor node depth
    (Monitor.inUse monitor) [] limit
  rw [Monitor.atFrames_inUse] at hfollows
  rw [walkUnder, hfollows]
  rcases Station.along handlers monitor limit
    (node.tour handlers depth (Monitor.inUse monitor)) [] with ⟨visits, none | e⟩ <;> rfl

theorem Node.guard_walkUnder (node : Node) (handlers : Handlers)
    (monitor : Option Monitor) (limit depth : Int) :
    (node.walkUnder monitor handlers (guardAt limit depth)).guard =
      guardAt limit depth := by
  rw [walkUnder_eq]
  split <;> rfl

/-- Where nothing is in the way, all nodes of the tour are visited. -/
theorem Node.walkUnder_of_open
    (h : ∀ station ∈ node.tour handlers depth (Monitor.inUse monitor),
      station.fault? handlers monitor limit = none) :
    node.walkUnder monitor handlers (guardAt limit depth) =
      ⟨.ok (node.answer handlers.stops),
        (node.tour handlers depth (Monitor.inUse monitor)).flatMap
          (Station.marks handlers), guardAt limit depth⟩ := by
  rw [walkUnder_eq, Station.along_of_open h, List.nil_append]

/-- The first station beyond which a walk does not get is the last one visited. -/
theorem Node.walkUnder_of_fault {before after : List Station} {station : Station}
    {e : WalkError}
    (hroute : node.tour handlers depth (Monitor.inUse monitor) =
      before ++ station :: after)
    (hbefore : ∀ earlier ∈ before, earlier.fault? handlers monitor limit = none)
    (hstation : station.fault? handlers monitor limit = some e) :
    node.walkUnder monitor handlers (guardAt limit depth) =
      ⟨.error e, before.flatMap (Station.marks handlers) ++
        station.lastMarks handlers monitor, guardAt limit depth⟩ := by
  rw [walkUnder_eq, hroute, Station.along_of_fault hbefore hstation, List.nil_append]

theorem exists_first {α : Type} {p : α → Prop} {route : List α}
    (h : ∃ a ∈ route, p a) :
    ∃ before a after, route = before ++ a :: after ∧
      (∀ earlier ∈ before, ¬ p earlier) ∧ p a := by
  induction route with
  | nil => simp at h
  | cons first route ih =>
      by_cases hfirst : p first
      · exact ⟨[], first, route, rfl, by simp, hfirst⟩
      · rw [List.exists_mem_cons_iff, or_iff_right hfirst] at h
        obtain ⟨before, a, after, rfl, hbefore, ha⟩ := ih h
        exact ⟨first :: before, a, after, rfl,
          List.forall_mem_cons.2 ⟨hfirst, hbefore⟩, ha⟩

theorem Node.walk_of_preorder_refused {before after : List (Node × Int)}
    {place : Node × Int}
    (hroute : node.preorder handlers.stops 0 = before ++ place :: after)
    (hbefore : ∀ earlier ∈ before, ¬ Refused handlers.stops limit earlier)
    (hplace : Refused handlers.stops limit place) :
    (node.walk handlers (guardAt limit 0)).outcome = .error (.tooDeep ⟨limit, none⟩) ∧
      (node.walk handlers (guardAt limit 0)).seen = before ++ [place] := by
  rw [← map_place_tour handlers node 0 0, List.map_eq_append_iff] at hroute
  obtain ⟨earlier, rest, htour, rfl, hrest⟩ := hroute
  obtain ⟨station, later, rfl, rfl, -⟩ := List.map_eq_cons_iff.1 hrest
  rw [List.forall_mem_map] at hbefore
  have hwalk := @walkUnder_of_fault node handlers none limit 0 _ _ _ _ htour
    (fun station hstation => station.fault?_none.2 (hbefore station hstation))
    (Station.fault?_none_of_refused hplace)
  rw [walk, hwalk]
  refine ⟨rfl, ?_⟩
  rw [Walk.seen, List.filterMap_append, Station.filterMap_flatMap_marks,
    Station.filterMap_lastMarks]

end Walks

/-- The most calls that lead from one visit to the next. -/
def Handlers.perLevel (handlers : Handlers) : Nat :=
  (if handlers.observed then 2 else 1) + if handlers.hooked.isEmpty then 1 else 2

theorem Handlers.frames_le (handlers : Handlers) (kind : Kind) :
    handlers.frames kind ≤ handlers.perLevel := by
  have hhooks : handlers.hooked.isEmpty → handlers.hooks kind = false := by
    intro hempty
    rw [hooks, List.isEmpty_iff.1 hempty, List.contains_nil]
  rw [frames, perLevel]
  refine Nat.add_le_add_left ?_ _
  by_cases hempty : handlers.hooked.isEmpty = true
  · simp only [hhooks hempty, Bool.and_false, Bool.false_eq_true, if_false, if_pos hempty,
      Nat.le_refl]
  · rw [if_neg hempty]
    split <;> decide

/-- The frames that a walk has use for under a limit: those of each level, and those
of the visit at which a level is refused, with the error that is built there. -/
def Handlers.room (handlers : Handlers) (levels : Nat) : Nat :=
  (levels + 1) * handlers.perLevel + Monitor.refusing

section Quiet

variable {handlers : Handlers} {monitor : Option Monitor} {limit depth : Int}
  {frames frames' : Nat}

/-- Under a monitor that is quiet for as long as the limit lets a walk go on, the
frames in use are all the same. -/
theorem Station.along_tour_of_quiet (node : Node) (visits : List Visit)
    (h : Monitor.Quiet monitor (frames + handlers.room (limit - depth).toNat)
      (max limit depth)) :
    along handlers monitor limit (node.tour handlers depth frames) visits =
      along handlers none limit (node.tour handlers depth frames') visits := by
  induction node using Node.induct generalizing depth frames frames' visits with
  | h node ih =>
      have hframes := handlers.frames_le node.kind
      rw [Handlers.room, Nat.add_mul, Nat.one_mul, Monitor.refusing] at h
      have hvisit : Monitor.breaksOff monitor (frames + handlers.frames node.kind) depth =
          false := h _ (by omega) _ (by omega)
      have hrefused : Monitor.breaksOff monitor
          (frames + handlers.frames node.kind + Monitor.refusing) depth = false :=
        h _ (by rw [Monitor.refusing]; omega) _ (by omega)
      have hnone (f : Nat) (d : Int) : Monitor.breaksOff none f d = false := rfl
      rw [tour_eq, tour_eq]
      simp only [along, fault?, lastMarks, inside, hvisit, hnone, Bool.false_eq_true,
        if_false]
      by_cases hstop : handlers.stops node.kind = true
      · simp only [if_pos hstop]
        rfl
      by_cases hlimit : limit ≤ depth
      · simp only [if_neg hstop, if_pos hlimit, hrefused, Bool.false_eq_true, if_false]
        rfl
      -- Inside the level there is one level less left, and as many more frames are used.
      have hlevels : (limit - depth).toNat = (limit - (depth + 1)).toNat + 1 := by omega
      rw [hlevels, Nat.add_mul, Nat.one_mul] at h
      have hlisted : Monitor.breaksOff monitor (frames + handlers.frames node.kind + 2)
          (depth + 1) = false := h _ (by omega) _ (by omega)
      simp only [if_neg hstop, if_neg hlimit, hlisted, Bool.false_eq_true, if_false]
      have hinner : Monitor.Quiet monitor (frames + handlers.frames node.kind +
          handlers.room (limit - (depth + 1)).toNat) (max limit (depth + 1)) := by
        rw [Handlers.room, Nat.add_mul, Nat.one_mul, Monitor.refusing]
        exact h.mono (by omega) (by omega)
      exact along_flatMap_congr fun child hchild visits => ih child hchild visits hinner

/-- A monitor that is quiet for that long makes no difference to a walk. -/
theorem Node.walkUnder_eq_walk (node : Node)
    (h : Monitor.Quiet monitor (Monitor.inUse monitor + handlers.room (limit - depth).toNat)
      (max limit depth)) :
    node.walkUnder monitor handlers (guardAt limit depth) =
      node.walk handlers (guardAt limit depth) := by
  rw [walk, walkUnder_eq, walkUnder_eq, Station.along_tour_of_quiet node [] h]

end Quiet

example :
    let inner := Node.value (.array [.string "a"])
    let node := Node.value (.array [.array [.string "a"], .string "b"])
    (node.walk {} (guardAt 1 0)).seen = [(node, 0), (inner, 1)] ∧
      (node.walk { stopped := ["ArrayValue"] } (guardAt 1 0)).seen = [(node, 0)] := by
  constructor <;> cbv

/-- A name with so many member accesses behind it. -/
def memberChain : Nat → Expr
  | 0 => .name "a"
  | n + 1 => .prop (memberChain n) "b"

section MemberChain

variable {handlers : Handlers} {limit depth : Int} {n room frames : Nat}

end MemberChain

end L20n
