import Bpmn.Proofs.Document.Aim

/-!
# What message flows join

A message flow that the checks accept has its ends in two pools.  A pool with a node in it has a
process, which is the one that holds the node, and a participant that refers to that process.  So
in the document the flow joins two participants by nodes of their processes
(`message_flows_join_participants`), however deep in lanes the nodes stand and wherever the flow
was declared.
-/

namespace Bpmn

open Markup Model Naming Assembly

namespace Document

/-- The process that a participant refers to has a node with this identifier. -/
def HasNode (d : Document) (a : Participant) (id : String) : Prop :=
  ∃ p ∈ d.processes, p.id = a.processRef ∧ ∃ n ∈ p.nodes, n.id = id

/-- A flow from a node of one participant to a node of another, which has another process. -/
def JoinsTwo (d : Document) (c : Collaboration) (f : Flow) : Prop :=
  ∃ a ∈ c.participants, ∃ b ∈ c.participants, a.id ≠ b.id ∧ a.processRef ≠ b.processRef ∧
    (∃ id, f.sourceRef = some id ∧ d.HasNode a id) ∧ ∃ id, f.targetRef = some id ∧ d.HasNode b id

section

variable {m : Model} {placement : Placement} {q : ProcessOutline} {h n pool : Handle}
  {c : Connection} {collaboration : Collaboration}

/-! ## Participants -/

theorem process_mem_entities (hq : q ∈ (Partition.ofModel m).processes) :
    .process q.pool ∈ entities m := by
  have hheld : .process q.pool ∈ (Partition.ofModel m).processes.flatMap (heldEntities m) :=
    List.mem_flatMap.mpr ⟨q, hq, List.mem_cons_self⟩
  exact List.mem_cons_of_mem _ (List.mem_append_left _ (List.mem_append_left _ hheld))

/-- The process that holds a node is that of the pool around the node. -/
theorem exists_process_of_poolOf? (hn : m.isNode n = true) (hpool : m.poolOf? n = some pool) :
    ∃ q ∈ (Partition.ofModel m).processes, q.pool = some pool ∧ n ∈ q.nodes := by
  obtain ⟨q, hq, hmem⟩ := Partition.exists_process_of_isNode hn
  exact ⟨q, hq, ((Partition.mem_nodes_iff hq).mp hmem).2.symm.trans hpool, hmem⟩

theorem exists_mem_participants (hq : q ∈ (Partition.ofModel m).processes)
    (hpool : q.pool = some pool) : ∃ name, ⟨elementId m pool, name,
      (Names.ofModel m).id (.process (some pool))⟩ ∈
        (Partition.ofModel m).processes.filterMap (participant? m (Names.ofModel m)) := by
  obtain ⟨name, -, hparticipant⟩ := participant?_of_pool (Names.ofModel m) hq hpool
  exact ⟨name, List.mem_filterMap.mpr ⟨q, hq, hparticipant⟩⟩

theorem hasNode {a : Participant} (hq : q ∈ (Partition.ofModel m).processes) (hn : n ∈ q.nodes)
    (ha : a.processRef = (Names.ofModel m).id (.process q.pool)) :
    (ofModel m placement).HasNode a (elementId m n) := by
  obtain ⟨node, hnode⟩ := exists_node (Partition.isNode_of_mem_nodes hq hn)
  have hheld := (mem_nodes_process hq).mpr ⟨n, hn, node, hnode, rfl⟩
  exact ⟨process m (Names.ofModel m) q, mem_processes.mpr ⟨q, hq, rfl⟩, by rw [ha, process],
    _, hheld, id_flowNode n node⟩

/-- A pool with a node in it takes part in the collaboration with the process of the node. -/
theorem exists_participant (hc : (ofModel m placement).collaboration = some collaboration)
    (hn : m.isNode n = true) (hpool : m.poolOf? n = some pool) :
    ∃ a ∈ collaboration.participants, a.id = elementId m pool ∧
      a.processRef = (Names.ofModel m).id (.process (some pool)) ∧
      (ofModel m placement).HasNode a (elementId m n) := by
  obtain ⟨q, hq, hqpool, hmem⟩ := exists_process_of_poolOf? hn hpool
  obtain ⟨name, ha⟩ := exists_mem_participants hq hqpool
  rw [eq_of_collaboration? hc]
  exact ⟨_, ha, by dsimp only, by dsimp only, hasNode hq hmem (by rw [hqpool])⟩

/-- Pools with nodes in them have different names, and so have their processes. -/
theorem ne_of_poolOf?_ne {s t a b : Handle} (hs : m.isNode s = true) (ht : m.isNode t = true)
    (ha : m.poolOf? s = some a) (hb : m.poolOf? t = some b) (hne : a ≠ b) :
    elementId m a ≠ elementId m b ∧
      (Names.ofModel m).id (.process (some a)) ≠ (Names.ofModel m).id (.process (some b)) := by
  obtain ⟨p, hp, hpa, -⟩ := exists_process_of_poolOf? hs ha
  obtain ⟨q, hq, hqb, -⟩ := exists_process_of_poolOf? ht hb
  refine ⟨fun hid => hne ?_, fun hid => hne ?_⟩
  · exact elementId_inj (mem_namedHandles_of_mem_busyPools (Partition.pool_mem_busyPools hp hpa))
      (mem_namedHandles_of_mem_busyPools (Partition.pool_mem_busyPools hq hqb)) hid
  · have hentity := Names.id_inj (hpa ▸ process_mem_entities hp) (hqb ▸ process_mem_entities hq) hid
    exact Option.some.inj (Entity.process.inj hentity)

/-! ## Message flows -/

theorem exists_collaboration (hc : m.connection? h = some c) (hflow : c.isMessageFlow = true) :
    ∃ collaboration, (ofModel m placement).collaboration = some collaboration := by
  refine Option.ne_none_iff_exists'.mp fun hnone => ?_
  obtain ⟨-, hnil⟩ := collaboration?_eq_none_iff.mp hnone
  have hmessage := mem_messageFlows hc hflow
  rw [hnil] at hmessage
  cases hmessage

theorem mem_messageFlows_iff (hcollaboration : (ofModel m placement).collaboration =
    some collaboration) {f : Flow} : f ∈ collaboration.messageFlows ↔
      ∃ h c, m.connection? h = some c ∧ c.isMessageFlow = true ∧
        flow (Names.ofModel m) h c = f := by
  rw [eq_of_collaboration? hcollaboration]
  constructor
  · intro hf
    obtain ⟨h, hmessage, c, hc, hf⟩ := mem_flows_iff.mp hf
    rw [Partition.mem_messageFlows, isMessageFlow, hc, Option.any_some] at hmessage
    exact ⟨h, c, hc, hmessage, hf⟩
  · rintro ⟨h, c, hc, hflow, hf⟩
    exact mem_flows_iff.mpr ⟨h, mem_messageFlows hc hflow, c, hc, hf⟩

theorem joinsTwo (hm : m.BoundToNodes) {warnings : List Diagnostic}
    (hvalid : m.validate = .ok warnings)
    (hcollaboration : (ofModel m placement).collaboration = some collaboration)
    (hc : m.connection? h = some c) (hflow : c.isMessageFlow = true) :
    (ofModel m placement).JoinsTwo collaboration (flow (Names.ofModel m) h c) := by
  obtain ⟨s, t, hs, ht, hplace⟩ := placed_of_validate hvalid hc
  obtain ⟨a, b, ha, hb, hne⟩ := (Check.placement?_eq_none_iff_of_message hflow).mp hplace
  have hsource : m.isNode s = true := hm h .source s (by rw [binding?, hc]; exact hs)
  have htarget : m.isNode t = true := hm h .target t (by rw [binding?, hc]; exact ht)
  obtain ⟨x, hx, hxid, hxref, hxnode⟩ := exists_participant hcollaboration hsource ha
  obtain ⟨y, hy, hyid, hyref, hynode⟩ := exists_participant hcollaboration htarget hb
  obtain ⟨hids, hrefs⟩ := ne_of_poolOf?_ne hsource htarget ha hb hne
  refine ⟨x, hx, y, hy, ?_, ?_, ⟨_, ?_, hxnode⟩, _, ?_, hynode⟩
  · rw [hxid, hyid]
    exact hids
  · rw [hxref, hyref]
    exact hrefs
  · exact reference?_of_isNode hc (show (c.reference .source).bound = some s from hs) hsource
  · exact reference?_of_isNode hc (show (c.reference .target).bound = some t from ht) htarget

/-- The flows of processes are those of other connections than message flows. -/
theorem mem_flows_process {p : Process} (hp : p ∈ (ofModel m placement).processes) {g : Flow}
    (hg : g ∈ p.flows) : ∃ x d, m.connection? x = some d ∧ d.isMessageFlow = false ∧
      flow (Names.ofModel m) x d = g := by
  obtain ⟨q, hq, rfl⟩ := mem_processes.mp hp
  obtain ⟨x, hx, d, hd, hg⟩ := mem_flows_iff.mp hg
  refine ⟨x, d, hd, Bool.eq_false_iff.mpr fun hmessage => ?_, hg⟩
  exact not_mem_flows hd hmessage hq hx

theorem id_ne_of_mem_flows {p : Process} (hp : p ∈ (ofModel m placement).processes) {g : Flow}
    (hg : g ∈ p.flows) (hc : m.connection? h = some c) (hflow : c.isMessageFlow = true) :
    g.id ≠ elementId m h := by
  obtain ⟨x, d, hd, hother, rfl⟩ := mem_flows_process hp hg
  rw [id_flow]
  intro hid
  obtain rfl : x = h := elementId_inj_of_isConnection (isConnection_of_connection? hd)
    (isConnection_of_connection? hc) hid
  rw [Option.some.inj (hd.symm.trans hc), hflow] at hother
  cases hother

end

/-- In the document of a model that compiles, with ends bound to nodes only, there is a
collaboration if there are message flows.  It has all of them, each joins two of its participants,
and no process has or lists any. -/
theorem message_flows_join_participants (edits : List Edit)
    (hopen : ∀ e ∈ edits, e.comesOpen = true) (w : Writer) (options : Options) (text : String)
    (hcompile : (ofEdits edits).compile w options = .ok text) :
    ∃ d, d = ofModel (ofEdits edits) options.placement ∧
      d.written w options.indent = .ok text ∧
      (∀ h, (ofEdits edits).isMessageFlow h = true → ∃ c, d.collaboration = some c ∧
        ∃ f ∈ c.messageFlows, f.id = elementId (ofEdits edits) h) ∧
      (∀ c, d.collaboration = some c → ∀ f ∈ c.messageFlows,
        d.JoinsTwo c f ∧ d.Unlisted f.id ∧ ∀ p ∈ d.processes, ∀ g ∈ p.flows, g.id ≠ f.id) ∧
      ∀ p ∈ d.processes, ∀ g ∈ p.flows, g.connector.isMessageFlow = false := by
  have hm := boundToNodes_ofEdits hopen
  -- From here on it does not matter how the model was made.
  generalize ofEdits edits = m at hm hcompile ⊢
  obtain ⟨⟨warnings, hvalid⟩, hgenerate⟩ := compile_eq_ok.mp hcompile
  refine ⟨ofModel m options.placement, rfl, generate_eq_ok.mp hgenerate, fun h hh => ?_,
    fun collaboration hcollaboration f hf => ?_, fun p hp g hg => ?_⟩
  · obtain ⟨c, hc, hflow⟩ := (Option.any_eq_true _ _).mp hh
    obtain ⟨collaboration, hcollaboration⟩ := exists_collaboration hc hflow
    have hf := (mem_messageFlows_iff hcollaboration).mpr ⟨h, c, hc, hflow, rfl⟩
    exact ⟨collaboration, hcollaboration, _, hf, id_flow⟩
  · obtain ⟨h, c, hc, hflow, rfl⟩ := (mem_messageFlows_iff hcollaboration).mp hf
    rw [id_flow]
    exact ⟨joinsTwo hm hvalid hcollaboration hc hflow, unlisted hc hflow,
      fun p hp g hg => id_ne_of_mem_flows hp hg hc hflow⟩
  · obtain ⟨x, d, -, hother, rfl⟩ := mem_flows_process hp hg
    exact hother

/-- A node in a lane of a lane, and one in another pool that a message goes to.  The flow is
declared in a lane and linked. -/
def messageFromLane : List Edit :=
  [.declare (.pool "P"), .declare (.lane "L" (some ⟨0⟩)), .declare (.lane "M" (some ⟨1⟩)),
    .declare (.node ⟨"A", .task none⟩ (some ⟨2⟩)), .declare (.pool "Q"),
    .declare (.node ⟨"B", .task none⟩ (some ⟨4⟩)),
    .declare (.connection ⟨⟨"A", none⟩, .message, ⟨"B", none⟩, none⟩ (some ⟨1⟩)), .link .poolWide]

theorem messageFromLane_joins :
    (∃ text, (ofEdits messageFromLane).compile .memory {} = .ok text) ∧
    ∃ c f, (ofModel (ofEdits messageFromLane) {}).collaboration = some c ∧ f ∈ c.messageFlows ∧
      f.id = elementId (ofEdits messageFromLane) ⟨6⟩ ∧
      (ofModel (ofEdits messageFromLane) {}).JoinsTwo c f := by
  have hvalid : (ofEdits messageFromLane).validate = .ok [] := by decide +kernel
  obtain ⟨text, hcompile⟩ := exists_compile Writer.lawful_memory hvalid {}
  obtain ⟨d, rfl, -, hall, hjoin, -⟩ :=
    message_flows_join_participants messageFromLane (by decide) .memory {} text hcompile
  obtain ⟨c, hc, f, hf, hid⟩ := hall ⟨6⟩ (by decide +kernel)
  exact ⟨⟨text, hcompile⟩, c, f, hc, hf, hid, (hjoin c hc f hf).1⟩

end Document
end Bpmn
