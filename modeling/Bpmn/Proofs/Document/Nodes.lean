import Bpmn.Document.Assembly
import Bpmn.Proofs.Naming.Names
import Bpmn.Proofs.Tables

/-!
# Records of nodes

What the nodes of a process are recorded with is gathered on the way through its nodes and flows,
and each node takes away what is gathered for it.  The nodes of an outline are all different, so no
node finds its part taken, and the part is what can be told from the flows alone (`nodes_process`).
-/

namespace Bpmn
namespace Assembly

open Model Naming

/-! ## What is gathered -/

/-- The identifiers of those flows among `hs` with one end bound to `node`. -/
def meeting (m : Model) (names : Names) (hs : List Handle) (endpoint : Endpoint) (node : Handle) :
    List String :=
  (hs.filter fun h => (m.connection? h).any fun c => (c.reference endpoint).bound == some node).map
    fun h => names.id (.element h)

/-- What an event waits for or raises, if it has a trigger. -/
def eventAt (m : Model) (names : Names) (h : Handle) : Option EventDefinition :=
  ((m.node? h).bind fun n => n.kind.trigger?).map fun t => ⟨t, names.id (.eventDefinition h)⟩

section

variable {m : Model} {names : Names} {h n : Handle}

theorem meeting_append (a b : List Handle) (endpoint : Endpoint) :
    meeting m names (a ++ b) endpoint n =
      meeting m names a endpoint n ++ meeting m names b endpoint n := by
  rw [meeting, List.filter_append, List.map_append, meeting, meeting]

namespace Gathered

def lists (g : Gathered) : Endpoint → Table (List String)
  | .source => g.outgoing
  | .target => g.incoming

/-- What is listed for a node at one end of flows. -/
def listed (g : Gathered) (endpoint : Endpoint) (n : Handle) : List String :=
  ((g.lists endpoint).lookup n).getD []

theorem lookup_addTo (bound : Option Handle) (id : String) (lists : Table (List String)) :
    ((addTo bound id lists).lookup n).getD [] =
      (lists.lookup n).getD [] ++ if bound = some n then [id] else [] := by
  cases bound with
  | none => simp [addTo]
  | some x =>
    rw [addTo, Table.lookup_alter]
    by_cases hx : n = x
    · simp [hx]
    · simp [hx, Ne.symm hx]

/-- A flow is listed at just the nodes that it meets. -/
theorem listed_addFlow (g : Gathered) (hid : (names.id? (.element h)).isSome)
    (endpoint : Endpoint) :
    (g.addFlow m names h).listed endpoint n =
      g.listed endpoint n ++ meeting m names [h] endpoint n := by
  obtain ⟨id, hid⟩ := Option.isSome_iff_exists.mp hid
  cases hc : m.connection? h with
  | none => simp [addFlow, meeting, hid, hc]
  | some c =>
    have hlists : (g.addFlow m names h).lists endpoint =
        addTo (c.reference endpoint).bound id (g.lists endpoint) := by
      rw [addFlow, hid, hc]
      cases endpoint <;> rfl
    rw [listed, hlists, lookup_addTo, ← listed, meeting, List.filter_cons, List.filter_nil, hc,
      Option.any_some]
    by_cases hbound : (c.reference endpoint).bound = some n
    · simp [hbound, Names.id_of_id? hid]
    · simp [hbound]

theorem listed_foldl_addFlow (g : Gathered) {hs : List Handle}
    (hids : ∀ h ∈ hs, (names.id? (.element h)).isSome) (endpoint : Endpoint) :
    (hs.foldl (addFlow m names) g).listed endpoint n =
      g.listed endpoint n ++ meeting m names hs endpoint n := by
  induction hs generalizing g with
  | nil => exact (List.append_nil _).symm
  | cons h rest ih =>
    rw [List.foldl_cons, ih _ fun x hx => hids x (List.mem_cons_of_mem _ hx),
      listed_addFlow g (hids h List.mem_cons_self), List.append_assoc, ← meeting_append,
      List.singleton_append]

theorem events_foldl_addFlow (g : Gathered) (hs : List Handle) :
    (hs.foldl (addFlow m names) g).events = g.events := by
  induction hs generalizing g with
  | nil => rfl
  | cons h rest ih =>
    rw [List.foldl_cons, ih, addFlow]
    split <;> rfl

theorem lookup_addEvent (events : Table EventDefinition) :
    (addEvent m names events h).lookup n =
      if n = h then (eventAt m names h).or (events.lookup n) else events.lookup n := by
  rw [addEvent, eventAt]
  cases (m.node? h).bind fun n => n.kind.trigger? with
  | none => simp
  | some t => simp [Table.lookup_insert]

theorem lookup_foldl_addEvent (events : Table EventDefinition) (hs : List Handle) :
    (hs.foldl (addEvent m names) events).lookup n =
      if n ∈ hs then (eventAt m names n).or (events.lookup n) else events.lookup n := by
  induction hs generalizing events with
  | nil => simp
  | cons h rest ih =>
    rw [List.foldl_cons, ih, lookup_addEvent]
    by_cases hn : n = h
    · -- The entry of an event that is added again is the same as before.
      simp [hn, ← Option.or_assoc]
    · simp [hn]

/-- What one node takes away no other node asks for. -/
theorem flowNode_without (g : Gathered) (hn : n ≠ h) (node : Node) (id : String) :
    (g.without h).flowNode n node id = g.flowNode n node id := by
  simp only [flowNode, without, Table.lookup_erase, if_neg hn]

end Gathered

/-! ## The records -/

/-- The record of a node as it can be told from the flows of its process. -/
def flowNode (m : Model) (names : Names) (p : ProcessOutline) (h : Handle) (n : Node) :
    FlowNode where
  kind := n.kind
  id := names.id (.element h)
  name := n.name
  incoming := meeting m names p.flows .target h
  outgoing := meeting m names p.flows .source h
  eventDefinition := n.kind.trigger?.map fun t => ⟨t, names.id (.eventDefinition h)⟩

/-- Different nodes never ask for the same part of what is gathered. -/
theorem flowNodes_eq (g : Gathered) {hs : List Handle} (hnodup : hs.Nodup)
    (hids : ∀ h ∈ hs, (names.id? (.element h)).isSome) :
    flowNodes m names g hs =
      hs.filterMap fun h => (m.node? h).map fun n => g.flowNode h n (names.id (.element h)) := by
  induction hs generalizing g with
  | nil => rfl
  | cons h rest ih =>
    obtain ⟨hfresh, hrest⟩ := List.nodup_cons.mp hnodup
    obtain ⟨id, hid⟩ := Option.isSome_iff_exists.mp (hids h List.mem_cons_self)
    have ih := fun g => ih g hrest fun x hx => hids x (List.mem_cons_of_mem _ hx)
    rw [flowNodes, List.filterMap_cons, hid]
    cases hn : m.node? h with
    | none => exact ih g
    | some n =>
      rw [ih, Option.map_some, Names.id_of_id? hid]
      refine congrArg _ (List.filterMap_congr fun x hx => Option.map_congr fun node _ => ?_)
      exact g.flowNode_without (ne_of_mem_of_not_mem hx hfresh) node _

/-- What a process is made of: different nodes, and connections, all of them with names. -/
structure WellFormed (m : Model) (names : Names) (p : ProcessOutline) : Prop where
  nodup : p.nodes.Nodup
  isNode : ∀ h ∈ p.nodes, m.isNode h = true
  isConnection : ∀ h ∈ p.flows, m.isConnection h = true
  named : ∀ h ∈ p.nodes ++ p.flows, (names.id? (.element h)).isSome

theorem wellFormed {p : ProcessOutline} (hp : p ∈ (Partition.ofModel m).processes) :
    WellFormed m (Names.ofModel m) p where
  nodup := Partition.nodes_nodup_of_mem hp
  isNode _ hh := Partition.isNode_of_mem_nodes hp hh
  isConnection _ hh := isConnection_of_isFlow (Partition.isFlow_of_mem_flows hp hh)
  named h hh := by
    have hheld : .element h ∈ heldEntities m p := by
      simp only [heldEntities, nodeEntities, List.mem_cons, List.mem_append, List.mem_flatMap]
      rcases List.mem_append.mp hh with hn | hf
      · exact .inr (.inl (.inr ⟨h, hn, .inl rfl⟩))
      · exact .inr (.inr (List.mem_map_of_mem hf))
    have hentity : .element h ∈ entities m := by
      rw [entities]
      simp only [List.mem_cons, List.mem_append, List.mem_flatMap]
      exact .inr (.inl (.inl ⟨p, hp, hheld⟩))
    rw [Names.id?_of_mem (Names.mem_keys.mpr hentity), Option.isSome_some]

/-- What is gathered for a node is what can be told of it from the flows. -/
theorem flowNode_ofOutline {p : ProcessOutline} (hp : WellFormed m names p) (hh : h ∈ p.nodes)
    {node : Node} (hn : m.node? h = some node) :
    (Gathered.ofOutline m names p).flowNode h node (names.id (.element h)) =
      flowNode m names p h node := by
  have hlisted : ∀ endpoint, (Gathered.ofOutline m names p).listed endpoint h =
      meeting m names p.flows endpoint h := by
    intro endpoint
    rw [Gathered.ofOutline, Gathered.listed_foldl_addFlow _ fun x hx =>
      hp.named x (List.mem_append_right _ hx)]
    cases endpoint <;> rfl
  have hevent : (Gathered.ofOutline m names p).events.lookup h =
      node.kind.trigger?.map fun t => ⟨t, names.id (.eventDefinition h)⟩ := by
    rw [Gathered.ofOutline, Gathered.events_foldl_addFlow, Gathered.lookup_foldl_addEvent,
      if_pos hh, eventAt, hn, Option.bind_some]
    exact Option.or_none
  rw [Gathered.flowNode, hevent, flowNode, ← hlisted .target, ← hlisted .source]
  rfl

theorem nodes_process {p : ProcessOutline} (hp : WellFormed m names p) :
    (process m names p).nodes =
      p.nodes.filterMap fun h => (m.node? h).map (flowNode m names p h) := by
  rw [process, flowNodes_eq _ hp.nodup fun h hh => hp.named h (List.mem_append_left _ hh)]
  exact List.filterMap_congr fun h hh => Option.map_congr fun n hn => flowNode_ofOutline hp hh hn

end
end Assembly
end Bpmn
