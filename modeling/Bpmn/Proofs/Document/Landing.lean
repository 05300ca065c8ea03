import Bpmn.Proofs.Compiling
import Bpmn.Proofs.Document.Routes

/-!
# Where flows land

A flow that the checks accept has ends in one pool or in none, but it is written where it was
declared.  Declared in the pool of its ends it lands beside both of them: they list it, and its
edge runs between their boxes.  Declared anywhere else it strays: its process holds neither end,
nothing lists it, and its edge shrinks to the origin.
-/

namespace Bpmn

open Markup Model Naming Assembly

namespace Document

/-- The process that the document of a model has for a pool, or for what stands outside pools. -/
def ProcessFor (m : Model) (d : Document) (pool : Option Handle) (p : Process) : Prop :=
  ∃ q, (q, p) ∈ (Partition.ofModel m).processes.zip d.processes ∧ q.pool = pool

/-- A flow in the process for a pool, or for what stands outside pools, and in no other. -/
structure HeldFor (m : Model) (d : Document) (pool : Option Handle) (flow : String) : Prop where
  held : ∃ p, ProcessFor m d pool p ∧ ∃ f ∈ p.flows, f.id = flow
  only : ∀ p ∈ d.processes, (∃ f ∈ p.flows, f.id = flow) → ProcessFor m d pool p

/-- A flow that no node lists. -/
def Unlisted (d : Document) (flow : String) : Prop :=
  ∀ p ∈ d.processes, ∀ a ∈ p.nodes, flow ∉ a.outgoing ∧ flow ∉ a.incoming

/-- A flow in the process for the place where it was declared, with both nodes that it joins there
and its line between their boxes. -/
structure Lands (m : Model) (d : Document) (h s t : Handle) : Prop where
  held : HeldFor m d (m.poolOf? h) (elementId m h)
  beside : ∀ p ∈ d.processes, (∃ f ∈ p.flows, f.id = elementId m h) →
    (∃ a ∈ p.nodes, a.id = elementId m s ∧ elementId m h ∈ a.outgoing) ∧
      ∃ b ∈ p.nodes, b.id = elementId m t ∧ elementId m h ∈ b.incoming
  between : d.Routed (elementId m h) (elementId m s) (elementId m t)

/-- A flow in the process for the place where it was declared, with neither of the nodes that it
joins there and its line at the origin. -/
structure Strays (m : Model) (d : Document) (h s t : Handle) : Prop where
  held : HeldFor m d (m.poolOf? h) (elementId m h)
  apart : ∀ p ∈ d.processes, (∃ f ∈ p.flows, f.id = elementId m h) →
    ∀ a ∈ p.nodes, a.id ≠ elementId m s ∧ a.id ≠ elementId m t
  unlisted : d.Unlisted (elementId m h)
  shrunk : d.Shrunk (elementId m h)

section

variable {m : Model} {placement : Placement} {q : ProcessOutline} {h n : Handle} {c : Connection}

/-! ## Processes -/

theorem id_flowNode (n : Handle) (node : Node) :
    (flowNode m (Names.ofModel m) q n node).id = elementId m n := by
  rw [elementId, flowNode]

theorem id_flow : (flow (Names.ofModel m) h c).id = elementId m h := by
  rw [elementId, flow]

theorem mem_processes {p : Process} : p ∈ (ofModel m placement).processes ↔
    ∃ q ∈ (Partition.ofModel m).processes, process m (Names.ofModel m) q = p := by
  rw [processes_ofModel, List.mem_map]

theorem mem_zip_processes {p : Process} :
    (q, p) ∈ (Partition.ofModel m).processes.zip (ofModel m placement).processes ↔
      q ∈ (Partition.ofModel m).processes ∧ process m (Names.ofModel m) q = p := by
  rw [processes_ofModel, ← List.map_prod_left_eq_zip, List.mem_map]
  constructor
  · rintro ⟨r, hr, heq⟩
    obtain ⟨rfl, rfl⟩ := Prod.mk.inj heq
    exact ⟨hr, rfl⟩
  · rintro ⟨hq, rfl⟩
    exact ⟨q, hq, rfl⟩

theorem meeting_eq (hs : List Handle) (endpoint : Endpoint) :
    meeting m (Names.ofModel m) hs endpoint n =
      (hs.filter fun h => m.binding? h endpoint == some n).map (elementId m) := by
  have hends : ∀ h, ((m.connection? h).any fun c => (c.reference endpoint).bound == some n) =
      (m.binding? h endpoint == some n) := by
    intro h
    rw [binding?]
    cases m.connection? h <;> rfl
  simp only [meeting, hends]
  rfl

section

variable (hq : q ∈ (Partition.ofModel m).processes)
include hq

theorem mem_nodes_process {a : FlowNode} :
    a ∈ (process m (Names.ofModel m) q).nodes ↔
      ∃ x ∈ q.nodes, ∃ node, m.node? x = some node ∧
        flowNode m (Names.ofModel m) q x node = a := by
  rw [nodes_process (wellFormed hq), List.mem_filterMap]
  exact exists_congr fun x => and_congr_right fun _ => Option.map_eq_some_iff

theorem exists_flow_iff (hf : m.isFlow h = true) :
    (∃ f ∈ (process m (Names.ofModel m) q).flows, f.id = elementId m h) ↔ h ∈ q.flows := by
  have hids : (process m (Names.ofModel m) q).flows.map Flow.id = q.flows.map (elementId m) :=
    ids_flows fun x hx => isConnection_of_isFlow (Partition.isFlow_of_mem_flows hq hx)
  have hmem : elementId m h ∈ q.flows.map (elementId m) ↔ h ∈ q.flows := by
    refine ⟨fun hmem => ?_, fun hmem => List.mem_map_of_mem hmem⟩
    obtain ⟨x, hx, hid⟩ := List.mem_map.mp hmem
    have hxf := Partition.isFlow_of_mem_flows hq hx
    rwa [← elementId_inj_of_isConnection (isConnection_of_isFlow hxf) (isConnection_of_isFlow hf)
      hid]
  rw [← hmem, ← hids, List.mem_map]

theorem mem_meeting_iff (hh : m.isConnection h = true) (endpoint : Endpoint) :
    elementId m h ∈ meeting m (Names.ofModel m) q.flows endpoint n ↔
      h ∈ q.flows ∧ m.binding? h endpoint = some n := by
  rw [meeting_eq, List.mem_map]
  constructor
  · rintro ⟨x, hx, hid⟩
    obtain ⟨hx, hbound⟩ := List.mem_filter.mp hx
    have hxf := Partition.isFlow_of_mem_flows hq hx
    obtain rfl : x = h := elementId_inj_of_isConnection (isConnection_of_isFlow hxf) hh hid
    exact ⟨hx, beq_iff_eq.mp hbound⟩
  · rintro ⟨hx, hbound⟩
    exact ⟨h, List.mem_filter.mpr ⟨hx, beq_iff_eq.mpr hbound⟩, rfl⟩

end

theorem heldFor (hf : m.isFlow h = true) :
    HeldFor m (ofModel m placement) (m.poolOf? h) (elementId m h) := by
  constructor
  · obtain ⟨q, hq, hmem⟩ := Partition.exists_process_of_isFlow hf
    exact ⟨_, ⟨q, mem_zip_processes.mpr ⟨hq, rfl⟩, ((Partition.mem_flows_iff hq).mp hmem).2.symm⟩,
      (exists_flow_iff hq hf).mpr hmem⟩
  · intro p hp hheld
    obtain ⟨q, hq, rfl⟩ := mem_processes.mp hp
    have hmem := (exists_flow_iff hq hf).mp hheld
    exact ⟨q, mem_zip_processes.mpr ⟨hq, rfl⟩, ((Partition.mem_flows_iff hq).mp hmem).2.symm⟩

/-! ## In the pool of its ends, or anywhere else -/

section

variable {s t : Handle} (hc : m.connection? h = some c) (hflow : c.isMessageFlow = false)
  (hs : c.source.bound = some s) (ht : c.target.bound = some t)
  (hsource : m.isNode s = true) (htarget : m.isNode t = true)
  (hpools : m.poolOf? s = m.poolOf? t)
include hc hflow hs ht hsource htarget hpools

theorem lands (hhome : m.poolOf? h = m.poolOf? s) : Lands m (ofModel m placement) h s t := by
  have hf := isFlow_of_connection? hc hflow
  have hh := isConnection_of_connection? hc
  have hs := (binding?_of_connection? hc .source).trans hs
  have ht := (binding?_of_connection? hc .target).trans ht
  have hsreach : Reaches m h s := (reaches_iff_of_isFlow hf).mpr ⟨hsource, hhome⟩
  have htreach : Reaches m h t := (reaches_iff_of_isFlow hf).mpr ⟨htarget, hhome.trans hpools⟩
  refine ⟨heldFor hf, fun p hp hheld => ?_, routed_of_joins ⟨hs, ht, hsreach, htreach⟩⟩
  obtain ⟨q, hq, rfl⟩ := mem_processes.mp hp
  have hmem := (exists_flow_iff hq hf).mp hheld
  have hsmem := (reaches_iff_of_mem_flows hq hmem).mp hsreach
  have htmem := (reaches_iff_of_mem_flows hq hmem).mp htreach
  obtain ⟨a, ha⟩ := exists_node hsource
  obtain ⟨b, hb⟩ := exists_node htarget
  have hout := (mem_meeting_iff hq hh .source).mpr ⟨hmem, hs⟩
  have hin := (mem_meeting_iff hq hh .target).mpr ⟨hmem, ht⟩
  exact ⟨⟨_, (mem_nodes_process hq).mpr ⟨s, hsmem, a, ha, rfl⟩, id_flowNode s a, hout⟩,
    _, (mem_nodes_process hq).mpr ⟨t, htmem, b, hb, rfl⟩, id_flowNode t b, hin⟩

theorem strays (haway : m.poolOf? h ≠ m.poolOf? s) : Strays m (ofModel m placement) h s t := by
  have hf := isFlow_of_connection? hc hflow
  have hh := isConnection_of_connection? hc
  have hs := (binding?_of_connection? hc .source).trans hs
  have ht := (binding?_of_connection? hc .target).trans ht
  have hsout : ¬Reaches m h s := fun hreach => haway ((reaches_iff_of_isFlow hf).mp hreach).2
  have htout : ¬Reaches m h t := fun hreach =>
    haway (((reaches_iff_of_isFlow hf).mp hreach).2.trans hpools.symm)
  have hends : ∀ q ∈ (Partition.ofModel m).processes, h ∈ q.flows → s ∉ q.nodes ∧ t ∉ q.nodes := by
    intro q hq hmem
    rw [← reaches_iff_of_mem_flows hq hmem, ← reaches_iff_of_mem_flows hq hmem]
    exact ⟨hsout, htout⟩
  refine ⟨heldFor hf, ?_, ?_, shrunk_of_not_joins hh ?_⟩
  · intro p hp hheld a ha
    obtain ⟨q, hq, rfl⟩ := mem_processes.mp hp
    obtain ⟨hsnot, htnot⟩ := hends q hq ((exists_flow_iff hq hf).mp hheld)
    obtain ⟨x, hx, node, -, rfl⟩ := (mem_nodes_process hq).mp ha
    have hxnode := Partition.isNode_of_mem_nodes hq hx
    have hne : ∀ n, m.isNode n = true → n ∉ q.nodes → elementId m x ≠ elementId m n := by
      intro n hn hnot hid
      rw [elementId_inj_of_isNode hxnode hn hid] at hx
      exact hnot hx
    rw [id_flowNode]
    exact ⟨hne s hsource hsnot, hne t htarget htnot⟩
  · intro p hp a ha
    obtain ⟨q, hq, rfl⟩ := mem_processes.mp hp
    obtain ⟨x, hx, node, -, rfl⟩ := (mem_nodes_process hq).mp ha
    refine ⟨fun hout => ?_, fun hin => ?_⟩
    · obtain ⟨hmem, hbound⟩ := (mem_meeting_iff hq hh .source).mp hout
      obtain rfl := Option.some.inj (hs.symm.trans hbound)
      exact (hends q hq hmem).1 hx
    · obtain ⟨hmem, hbound⟩ := (mem_meeting_iff hq hh .target).mp hin
      obtain rfl := Option.some.inj (ht.symm.trans hbound)
      exact (hends q hq hmem).2 hx
  · rintro ⟨x, y, hj⟩
    obtain rfl : s = x := Option.some.inj (hs.symm.trans hj.source)
    exact hsout hj.reaches_source

end

theorem Strays.not_lands {d : Document} {s t : Handle} (h' : Strays m d h s t) :
    ¬Lands m d h s t := by
  intro hlands
  obtain ⟨p, ⟨q, hq, -⟩, hheld⟩ := h'.held.held
  have hp : p ∈ d.processes := (List.of_mem_zip hq).2
  obtain ⟨⟨a, ha, hid, -⟩, -⟩ := hlands.beside p hp hheld
  exact (h'.apart p hp hheld a ha).1 hid

/-- In the document of a model that compiles, a flow lands beside its ends if it was declared in
their pool, or outside pools as they were, and strays if it was not. -/
theorem flow_placed_by_declaration (m : Model) (hm : m.BoundToNodes) (w : Writer)
    (options : Options) (text : String) (hcompile : m.compile w options = .ok text) :
    (ofModel m options.placement).written w options.indent = .ok text ∧
    ∀ h c, m.connection? h = some c → c.isMessageFlow = false →
      ∃ s t, c.source.bound = some s ∧ c.target.bound = some t ∧ m.poolOf? s = m.poolOf? t ∧
        if m.poolOf? h = m.poolOf? s then
          Lands m (ofModel m options.placement) h s t
        else
          Strays m (ofModel m options.placement) h s t := by
  obtain ⟨⟨warnings, hvalid⟩, hgenerate⟩ := compile_eq_ok.mp hcompile
  refine ⟨generate_eq_ok.mp hgenerate, fun h c hc hflow => ?_⟩
  obtain ⟨s, t, hs, ht, hpools⟩ := bound_of_validate hvalid hc
  have hsource : m.isNode s = true := hm h .source s (by rw [binding?, hc]; exact hs)
  have htarget : m.isNode t = true := hm h .target t (by rw [binding?, hc]; exact ht)
  refine ⟨s, t, hs, ht, hpools hflow, ?_⟩
  split
  next hhome => exact lands hc hflow hs ht hsource htarget (hpools hflow) hhome
  next haway => exact strays hc hflow hs ht hsource htarget (hpools hflow) haway

end

/-- Two flows from a node in a lane to a node beside the lane, one declared in the lane and one at
the top level. -/
def flowsInLaneAndAtTop : Model :=
  ofEdits
    [.declare (.pool "P"), .declare (.lane "L" (some ⟨0⟩)),
      .declare (.node ⟨"A", .task none⟩ (some ⟨1⟩)), .declare (.node ⟨"B", .task none⟩ (some ⟨0⟩)),
      .declare (.connect ⟨2⟩ .sequence ⟨3⟩ (some ⟨1⟩)),
      .declare (.connect ⟨2⟩ .association ⟨3⟩ none)]

theorem flowsInLaneAndAtTop_placed : flowsInLaneAndAtTop.BoundToNodes ∧
    ∃ text, flowsInLaneAndAtTop.compile .memory {} = .ok text ∧
      (ofModel flowsInLaneAndAtTop {}).written .memory 2 = .ok text ∧
      Lands flowsInLaneAndAtTop (ofModel flowsInLaneAndAtTop {}) ⟨4⟩ ⟨2⟩ ⟨3⟩ ∧
      Strays flowsInLaneAndAtTop (ofModel flowsInLaneAndAtTop {}) ⟨5⟩ ⟨2⟩ ⟨3⟩ := by
  have hbound : flowsInLaneAndAtTop.BoundToNodes := boundToNodes_ofEdits (by decide)
  have hvalid : flowsInLaneAndAtTop.validate = .ok [] := by decide +kernel
  obtain ⟨text, hcompile⟩ := exists_compile Writer.lawful_memory hvalid {}
  obtain ⟨hwritten, hflows⟩ :=
    flow_placed_by_declaration flowsInLaneAndAtTop hbound .memory {} text hcompile
  obtain ⟨s, t, hs, ht, -, hlands⟩ := hflows ⟨4⟩ _ rfl rfl
  obtain rfl := Option.some.inj hs
  obtain rfl := Option.some.inj ht
  rw [if_pos (by decide +kernel)] at hlands
  obtain ⟨s, t, hs, ht, -, hstrays⟩ := hflows ⟨5⟩ _ rfl rfl
  obtain rfl := Option.some.inj hs
  obtain rfl := Option.some.inj ht
  rw [if_neg (by decide +kernel)] at hstrays
  exact ⟨hbound, text, hcompile, hwritten, hlands, hstrays⟩

/-- A flow declared at the top level, between two nodes of one pool. -/
def flowAtTop : Model :=
  ofEdits
    [.declare (.pool "P"), .declare (.node ⟨"A", .task none⟩ (some ⟨0⟩)),
      .declare (.node ⟨"B", .task none⟩ (some ⟨0⟩)), .declare (.connect ⟨1⟩ .sequence ⟨2⟩ none)]

/-- The checks accept such a flow, but it does not land beside its ends. -/
theorem flowAtTop_not_lands : flowAtTop.BoundToNodes ∧
    (∃ text, flowAtTop.compile .memory {} = .ok text) ∧
    flowAtTop.connection? ⟨3⟩ =
      some ⟨⟨"A", some ⟨1⟩⟩, .sequence, ⟨"B", some ⟨2⟩⟩, none⟩ ∧
    Strays flowAtTop (ofModel flowAtTop {}) ⟨3⟩ ⟨1⟩ ⟨2⟩ ∧
    ¬Lands flowAtTop (ofModel flowAtTop {}) ⟨3⟩ ⟨1⟩ ⟨2⟩ := by
  have hbound : flowAtTop.BoundToNodes := boundToNodes_ofEdits (by decide)
  have hvalid : flowAtTop.validate = .ok [] := by decide +kernel
  have hstrays : Strays flowAtTop (ofModel flowAtTop {}) ⟨3⟩ ⟨1⟩ ⟨2⟩ :=
    strays rfl rfl rfl rfl (by decide) (by decide) (by decide +kernel) (by decide +kernel)
  exact ⟨hbound, exists_compile Writer.lawful_memory hvalid {}, rfl, hstrays, hstrays.not_lands⟩

end Document
end Bpmn
