import Bpmn.Proofs.Check.Linked
import Bpmn.Proofs.Document.Landing

/-!
# Flows that linking has bound

Linking binds an end of a flow to a node of the pool in which the flow stands, and a process holds
what stands in its pool.  So such a flow lands beside its ends whether or not the checks accept the
model, and each of them lists it once.  A message flow is listed by no node, and its edge runs
between the boxes of its ends, whichever rows they are in.
-/

namespace Bpmn

open Model Naming Assembly

namespace Document

/-- A flow that its source lists once as outgoing and its target once as incoming, and nothing else
lists. -/
structure ListedOnce (d : Document) (flow source target : String) : Prop where
  outgoing : ∀ p ∈ d.processes, ∀ a ∈ p.nodes,
    a.outgoing.count flow = if a.id = source then 1 else 0
  incoming : ∀ p ∈ d.processes, ∀ b ∈ p.nodes,
    b.incoming.count flow = if b.id = target then 1 else 0

section

variable {m : Model} {placement : Placement} {q : ProcessOutline} {h n : Handle} {c : Connection}

/-! ## Listed once -/

theorem count_meeting_of_mem (hq : q ∈ (Partition.ofModel m).processes) (hh : h ∈ q.flows)
    (endpoint : Endpoint) : (meeting m (Names.ofModel m) q.flows endpoint n).count (elementId m h) =
      if m.binding? h endpoint = some n then 1 else 0 := by
  have hflows : ∀ x ∈ q.flows, m.isConnection x = true :=
    fun x hx => isConnection_of_isFlow (Partition.isFlow_of_mem_flows hq hx)
  have hinj : ∀ x ∈ q.flows.filter (fun f => m.binding? f endpoint == some n),
      elementId m x = elementId m h → x = h := fun x hx hid =>
    elementId_inj_of_isConnection (hflows x (List.mem_filter.mp hx).1) (hflows h hh) hid
  rw [meeting_eq, count_map_eq ((Partition.flows_nodup_of_mem hq).filter _) hinj]
  simp [hh]

/-- A node lists a flow of its own process once or not at all. -/
theorem count_meeting (hq : q ∈ (Partition.ofModel m).processes)
    (hc : m.connection? h = some c) (hf : m.isFlow h = true) (endpoint : Endpoint)
    (hbound : (c.reference endpoint).bound = some n) (hn : m.isNode n = true)
    (hhome : m.poolOf? h = m.poolOf? n) {x : Handle} (hx : x ∈ q.nodes) :
    (meeting m (Names.ofModel m) q.flows endpoint x).count (elementId m h) =
      if elementId m x = elementId m n then 1 else 0 := by
  have hxnode := Partition.isNode_of_mem_nodes hq hx
  have hbound := (binding?_of_connection? hc endpoint).trans hbound
  have hid : elementId m x = elementId m n ↔ x = n :=
    ⟨elementId_inj_of_isNode hxnode hn, congrArg (elementId m)⟩
  split
  next heq =>
    obtain rfl := hid.mp heq
    have hflow : h ∈ q.flows := by
      rw [Partition.mem_flows_iff hq, hhome]
      exact ⟨hf, ((Partition.mem_nodes_iff hq).mp hx).2⟩
    rw [count_meeting_of_mem hq hflow, if_pos hbound]
  next hne =>
    refine List.count_eq_zero.mpr fun hlisted => hne ?_
    obtain ⟨-, hother⟩ := (mem_meeting_iff hq (isConnection_of_isFlow hf) endpoint).mp hlisted
    exact congrArg (elementId m) (Option.some.inj (hother.symm.trans hbound))

theorem listedOnce {s t : Handle} (hc : m.connection? h = some c)
    (hflow : c.isMessageFlow = false) (hs : c.source.bound = some s)
    (ht : c.target.bound = some t) (hsource : m.isNode s = true) (htarget : m.isNode t = true)
    (hspool : m.poolOf? h = m.poolOf? s) (htpool : m.poolOf? h = m.poolOf? t) :
    (ofModel m placement).ListedOnce (elementId m h) (elementId m s) (elementId m t) := by
  have hf := isFlow_of_connection? hc hflow
  constructor
  · intro p hp a ha
    obtain ⟨q, hq, rfl⟩ := mem_processes.mp hp
    obtain ⟨x, hx, node, -, rfl⟩ := (mem_nodes_process hq).mp ha
    rw [id_flowNode]
    exact count_meeting hq hc hf .source hs hsource hspool hx
  · intro p hp b hb
    obtain ⟨q, hq, rfl⟩ := mem_processes.mp hp
    obtain ⟨x, hx, node, -, rfl⟩ := (mem_nodes_process hq).mp hb
    rw [id_flowNode]
    exact count_meeting hq hc hf .target ht htarget htpool hx

/-! ## Message flows -/

theorem mem_messageFlows (hc : m.connection? h = some c) (hflow : c.isMessageFlow = true) :
    h ∈ (Partition.ofModel m).messageFlows := by
  rw [Partition.mem_messageFlows, isMessageFlow_eq hc, hflow]

theorem not_mem_flows (hc : m.connection? h = some c) (hflow : c.isMessageFlow = true)
    (hq : q ∈ (Partition.ofModel m).processes) : h ∉ q.flows := by
  intro hmem
  have hf := Partition.isFlow_of_mem_flows hq hmem
  rw [isFlow, hc, Option.any_some, hflow] at hf
  cases hf

theorem unlisted (hc : m.connection? h = some c) (hflow : c.isMessageFlow = true) :
    (ofModel m placement).Unlisted (elementId m h) := by
  have hnot : ∀ q ∈ (Partition.ofModel m).processes, ∀ endpoint x,
      elementId m h ∉ meeting m (Names.ofModel m) q.flows endpoint x := by
    intro q hq endpoint x hmem
    obtain ⟨f, hf, hid⟩ := List.mem_map.mp hmem
    have hf := (List.mem_filter.mp hf).1
    have hflows := isConnection_of_isFlow (Partition.isFlow_of_mem_flows hq hf)
    obtain rfl : f = h :=
      elementId_inj_of_isConnection hflows (isConnection_of_connection? hc) hid
    exact not_mem_flows hc hflow hq hf
  intro p hp a ha
  obtain ⟨q, hq, rfl⟩ := mem_processes.mp hp
  obtain ⟨x, -, node, -, rfl⟩ := (mem_nodes_process hq).mp ha
  exact ⟨hnot q hq .source x, hnot q hq .target x⟩

theorem routed_of_message {s t : Handle} (hc : m.connection? h = some c)
    (hflow : c.isMessageFlow = true) (hs : c.source.bound = some s)
    (ht : c.target.bound = some t) (hsource : m.isNode s = true) (htarget : m.isNode t = true) :
    (ofModel m placement).Routed (elementId m h) (elementId m s) (elementId m t) := by
  have hmessage := (isMessageFlow_eq hc).trans hflow
  refine routed_of_joins ⟨(binding?_of_connection? hc .source).trans hs,
    (binding?_of_connection? hc .target).trans ht, ?_, ?_⟩
  · exact (reaches_iff_of_isMessageFlow hmessage).mpr hsource
  · exact (reaches_iff_of_isMessageFlow hmessage).mpr htarget

end

/-- Passes of linking, in whatever modes, bind flows so that they land beside their ends in the
document and are listed there once each.  Message flows are listed nowhere and run between the
boxes of their ends. -/
theorem linked_flows_land (m : Model) (hm : m.Unbound) (modes : List Visibility) :
    ∃ linked, m.linkAll modes = .ok linked ∧ Rebound m linked ∧
      ∀ (placement : Placement) h c s t, linked.connection? h = some c →
        c.source.bound = some s → c.target.bound = some t →
        if c.isMessageFlow then
          (ofModel linked placement).Unlisted (elementId linked h) ∧
            (ofModel linked placement).Routed (elementId linked h) (elementId linked s)
              (elementId linked t)
        else
          Lands linked (ofModel linked placement) h s t ∧
            (ofModel linked placement).ListedOnce (elementId linked h) (elementId linked s)
              (elementId linked t) := by
  obtain ⟨linked, hlink, hr, hsight⟩ := hm.boundInSight.linkAll modes
  refine ⟨linked, hlink, hr, fun placement h c s t hc hs ht => ?_⟩
  have hnode : ∀ endpoint n, (c.reference endpoint).bound = some n → linked.isNode n = true := by
    intro endpoint n hn
    obtain ⟨mode, hcandidate⟩ := hsight h endpoint n (by rw [binding?, hc]; exact hn)
    exact (mem_candidates.mp hcandidate).1
  have hsource := hnode .source s hs
  have htarget := hnode .target t ht
  cases hflow : c.isMessageFlow with
  | true =>
    rw [if_pos rfl]
    exact ⟨unlisted hc hflow, routed_of_message hc hflow hs ht hsource htarget⟩
  | false =>
    have hspool := (hsight.poolOf?_eq hc .source hflow hs).symm
    have htpool := (hsight.poolOf?_eq hc .target hflow ht).symm
    rw [if_neg Bool.false_ne_true]
    exact ⟨lands hc hflow hs ht hsource htarget (hspool.symm.trans htpool) hspool,
      listedOnce hc hflow hs ht hsource htarget hspool htpool⟩

/-- The flow in a lane of `laneAndPools` and the message flow between its pools, each bound by a
pass of its own. -/
theorem laneAndPools_land : (ofEdits (laneAndPools.map .declare)).Unbound ∧
    ∃ linked, (ofEdits (laneAndPools.map .declare)).linkAll [.laneLocal, .poolWide] = .ok linked ∧
      linked.connection? ⟨4⟩ = some ⟨⟨"A", some ⟨2⟩⟩, .sequence, ⟨"B", some ⟨3⟩⟩, none⟩ ∧
      Lands linked (ofModel linked {}) ⟨4⟩ ⟨2⟩ ⟨3⟩ ∧
      (ofModel linked {}).ListedOnce (elementId linked ⟨4⟩) (elementId linked ⟨2⟩)
        (elementId linked ⟨3⟩) ∧
      linked.connection? ⟨7⟩ = some ⟨⟨"A", some ⟨2⟩⟩, .message, ⟨"C", some ⟨6⟩⟩, none⟩ ∧
      (ofModel linked {}).Routed (elementId linked ⟨7⟩) (elementId linked ⟨2⟩)
        (elementId linked ⟨6⟩) := by
  have hopen : (ofEdits (laneAndPools.map .declare)).Unbound := unbound_of_declarations (by decide)
  have hbound : (((ofEdits (laneAndPools.map .declare)).linkAll
      [.laneLocal, .poolWide]).toOption.map
        fun linked => (linked.connection? ⟨4⟩, linked.connection? ⟨7⟩)) =
        some (some ⟨⟨"A", some ⟨2⟩⟩, .sequence, ⟨"B", some ⟨3⟩⟩, none⟩,
          some ⟨⟨"A", some ⟨2⟩⟩, .message, ⟨"C", some ⟨6⟩⟩, none⟩) := by
    decide +kernel
  obtain ⟨linked, hlink, -, hland⟩ := linked_flows_land _ hopen [.laneLocal, .poolWide]
  rw [hlink] at hbound
  obtain ⟨hflow, hmessage⟩ := Prod.mk.inj (Option.some.inj hbound)
  obtain ⟨hlands, hlisted⟩ := hland {} ⟨4⟩ _ _ _ hflow rfl rfl
  obtain ⟨-, hrouted⟩ := hland {} ⟨7⟩ _ _ _ hmessage rfl rfl
  exact ⟨hopen, linked, hlink, hflow, hlands, hlisted, hmessage, hrouted⟩

end Document
end Bpmn
