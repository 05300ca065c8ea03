import Bpmn.Proofs.Document.Routes

/-!
# What a diagram draws

A model with a node or a connection has a diagram, which draws each node, each connection and each
pool with nodes in it once (`diagram_complete`).
-/

namespace Bpmn

open Model Naming Assembly

namespace Document

/-- A diagram with one shape for each node and for each pool with nodes in it, and one edge for each
connection. -/
structure Draws (m : Model) (d : Diagram) : Prop where
  shapes : (d.shapes.map fun s => (s.elementRef, s.isHorizontal)).Perm
    ((m.walk.filter m.isNode).map (fun n => (elementId m n, false)) ++
      (m.pools.filter fun p => !(m.nodesIn p).isEmpty).map fun p => (elementId m p, true))
  edges : (d.edges.map Edge.elementRef).Perm (m.connections.map (elementId m))
  /-- No element is drawn twice. -/
  nodup : (d.shapes.map Shape.elementRef ++ d.edges.map Edge.elementRef).Nodup
  routed : ∀ h s t, Joins m h s t → d.Runs (elementId m h) (elementId m s) (elementId m t)
  shrunk : ∀ h, m.isConnection h = true → (¬∃ s t, Joins m h s t) → d.Shrinks (elementId m h)

section

variable {m : Model} {placement : Placement} {q : ProcessOutline} {h n : Handle} {c : Connection}

/-! ## What is drawn -/

theorem boxedPools_eq : (Partition.ofModel m).processes.flatMap boxedPool =
    m.pools.filter fun p => !(m.nodesIn p).isEmpty := by
  have houtside : boxedPool (Partition.outside m) = [] := by
    rw [boxedPool, Partition.outside_eq, ite_self]
    rfl
  have hpool : ∀ p, boxedPool (Partition.ofPool m p) =
      [p].filter fun p => !(m.nodesIn p).isEmpty := by
    intro p
    rw [boxedPool, Partition.ofPool, List.filter_singleton]
    cases (m.nodesIn p).isEmpty <;> rfl
  have hidle : ∀ p ∈ m.pools, (!(m.children p).isEmpty) = false →
      [p].filter (fun p => !(m.nodesIn p).isEmpty) = [] := by
    intro p _ hkids
    rw [Bool.not_eq_false', List.isEmpty_iff] at hkids
    rw [List.filter_singleton, nodesIn, descendants_eq, hkids]
    rfl
  rw [Partition.processes_flatMap fun _ => houtside, houtside, List.nil_append,
    List.flatMap_congr fun p _ => hpool p, busyPools, flatMap_filter_eq hidle,
    ← List.filter_flatMap, List.flatMap_singleton']

/-- Pools have boxes only around nodes, so there is nothing to draw where there is no node and no
connection. -/
theorem drawnHandles_ne_nil_iff :
    drawnHandles m ≠ [] ↔ ∃ h, m.isNode h = true ∨ m.isConnection h = true := by
  constructor
  · intro hdrawn
    obtain ⟨h, hh⟩ := List.exists_mem_of_ne_nil _ hdrawn
    rcases List.mem_append.mp hh with hbox | hline
    · obtain ⟨q, hq, hbox⟩ := List.mem_flatMap.mp hbox
      have hnodes : q.nodes ≠ [] := by
        intro hnil
        rw [boxed, boxedPool, hnil] at hbox
        cases hbox
      obtain ⟨n, hn⟩ := List.exists_mem_of_ne_nil _ hnodes
      exact ⟨n, .inl (Partition.isNode_of_mem_nodes hq hn)⟩
    · exact ⟨h, .inr (Partition.mem_connections.mp hline)⟩
  · rintro ⟨h, hn | hc⟩
    · obtain ⟨q, hq, hmem⟩ := Partition.exists_process_of_isNode hn
      have hbox : h ∈ (Partition.ofModel m).processes.flatMap boxed :=
        List.mem_flatMap.mpr ⟨q, hq, List.mem_append_right (boxedPool q) hmem⟩
      exact List.ne_nil_of_mem (List.mem_append_left _ hbox)
    · exact List.ne_nil_of_mem (List.mem_append_right _ (Partition.mem_connections.mpr hc))

theorem diagram_isSome_iff : (ofModel m placement).diagram.isSome = true ↔
    ∃ h, m.isNode h = true ∨ m.isConnection h = true := by
  have hshapes : allShapes (Names.ofModel m) (Partition.ofModel m) (layout m placement) = [] ↔
      (Partition.ofModel m).processes.flatMap boxed = [] := by
    rw [← List.map_eq_nil_iff (f := Shape.elementRef), allShapes_map_boxed shape_elementRef,
      List.map_eq_nil_iff]
  have hedges : allEdges m (Names.ofModel m) (Partition.ofModel m) (layout m placement) = [] ↔
      (Partition.ofModel m).flows ++ (Partition.ofModel m).messageFlows = [] := by
    rw [← List.map_eq_nil_iff (f := Edge.elementRef), allEdges_map edge_elementRef,
      List.map_eq_nil_iff]
  obtain ⟨planeElement, hdraw⟩ := diagram_ofModel m placement
  rw [hdraw, diagram?, ← drawnHandles_ne_nil_iff, drawnHandles, Ne, List.append_eq_nil_iff,
    ← hshapes, ← hedges, ← List.isEmpty_iff, ← List.isEmpty_iff, ← Bool.and_eq_true]
  split
  next hnothing => exact iff_of_false Bool.false_ne_true (not_not.mpr hnothing)
  next hsomething => exact iff_of_true rfl hsomething

/-! ## The whole diagram -/

theorem eq_of_diagram {d : Diagram} (hd : (ofModel m placement).diagram = some d) :
    d.shapes = allShapes (Names.ofModel m) (Partition.ofModel m) (layout m placement) ∧
      d.edges = allEdges m (Names.ofModel m) (Partition.ofModel m) (layout m placement) := by
  obtain ⟨planeElement, hdraw⟩ := diagram_ofModel m placement
  rw [hdraw] at hd
  rw [eq_of_diagram? hd]
  exact ⟨rfl, rfl⟩

theorem shapes_perm : ((allShapes (Names.ofModel m) (Partition.ofModel m)
    (layout m placement)).map fun s => (s.elementRef, s.isHorizontal)).Perm
      ((m.walk.filter m.isNode).map (fun n => (elementId m n, false)) ++
        (m.pools.filter fun p => !(m.nodesIn p).isEmpty).map fun p => (elementId m p, true)) := by
  have hshape : ∀ lying h bounds, ((shape (Names.ofModel m) lying h bounds).elementRef,
      (shape (Names.ofModel m) lying h bounds).isHorizontal) = (elementId m h, lying) := by
    intro lying h bounds
    rw [elementRef_shape, shape_isHorizontal]
  rw [allShapes_map (k := fun lying h => (elementId m h, lying)) hshape, ← boxedPools_eq]
  refine (List.flatMap_append_perm _ _ _).symm.trans (List.perm_append_comm.trans ?_)
  rw [← List.map_flatMap, ← List.map_flatMap]
  exact (Partition.nodes_perm.map _).append_right _

theorem drawn_nodup : ((allShapes (Names.ofModel m) (Partition.ofModel m)
    (layout m placement)).map Shape.elementRef ++
      (allEdges m (Names.ofModel m) (Partition.ofModel m) (layout m placement)).map
        Edge.elementRef).Nodup := by
  rw [allShapes_map_boxed shape_elementRef, allEdges_map edge_elementRef, ← List.map_append]
  exact drawnHandles_nodup.map_on fun a ha b hb hid =>
    elementId_inj (drawnHandles_subperm.subset ha) (drawnHandles_subperm.subset hb) hid

end

/-- There is a diagram if there is a node or a connection.  It draws these and the pools with nodes
in them, each once.  Where both ends of a connection are bound to nodes that its line can run to,
the line runs from the middle of the one's box to the middle of the other's, and where not, it
shrinks to the origin. -/
theorem diagram_complete (m : Model) (placement : Placement) :
    ((ofModel m placement).diagram.isSome = true ↔
        ∃ h, m.isNode h = true ∨ m.isConnection h = true) ∧
      ∀ d, (ofModel m placement).diagram = some d → Draws m d := by
  refine ⟨diagram_isSome_iff, fun d hd => ?_⟩
  obtain ⟨hshapes, hedges⟩ := eq_of_diagram hd
  constructor
  · rw [hshapes]
    exact shapes_perm
  · rw [hedges, allEdges_map elementRef_edge]
    exact Partition.connections_perm.map _
  · rw [hshapes, hedges]
    exact drawn_nodup
  · exact fun h s t hj => runs_of_joins hj hshapes hedges
  · exact fun h hh hj => shrinks_of_not_joins hh hj hedges

end Document
end Bpmn
