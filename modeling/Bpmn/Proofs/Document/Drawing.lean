import Bpmn.Proofs.Diagram.Rows
import Bpmn.Proofs.Document.Content

/-!
# What a diagram draws

A diagram has a shape for each node and for each pool with nodes below it, and an edge for each
connection, whatever the placement (`allShapes_map_boxed`, `allEdges_map`).
-/

namespace Bpmn
namespace Assembly

open Model Naming

/-- The pool of a process, if there is a node to draw it around. -/
def boxedPool (p : ProcessOutline) : List Handle :=
  (if p.nodes.isEmpty then none else p.pool).toList

def boxed (p : ProcessOutline) : List Handle := boxedPool p ++ p.nodes

def drawnHandles (m : Model) : List Handle :=
  (Partition.ofModel m).processes.flatMap boxed ++
    ((Partition.ofModel m).flows ++ (Partition.ofModel m).messageFlows)

/-- The shape of an element by its name. -/
def shape (names : Names) (isHorizontal : Bool) (h : Handle) (bounds : Bounds) : Shape :=
  ⟨Identifier.drawn (names.id (.element h)), names.id (.element h), bounds, isHorizontal⟩

/-- The edge of a connection by its name. -/
def edge (names : Names) (h : Handle) (route : Route) : Edge :=
  ⟨Identifier.drawn (names.id (.element h)), names.id (.element h), route⟩

section

variable {m : Model} {names : Names} {p : ProcessOutline} {row : Row} {β : Type}

theorem shape_id (lying : Bool) (h : Handle) (bounds : Bounds) :
    (shape names lying h bounds).id = Identifier.drawn (names.id (.element h)) := rfl

theorem shape_elementRef (lying : Bool) (h : Handle) (bounds : Bounds) :
    (shape names lying h bounds).elementRef = names.id (.element h) := rfl

theorem shape_isHorizontal (lying : Bool) (h : Handle) (bounds : Bounds) :
    (shape names lying h bounds).isHorizontal = lying := rfl

theorem edge_id (h : Handle) (route : Route) :
    (edge names h route).id = Identifier.drawn (names.id (.element h)) := rfl

theorem edge_elementRef (h : Handle) (route : Route) :
    (edge names h route).elementRef = names.id (.element h) := rfl

theorem shape?_eq {h : Handle} (hid : (names.id? (.element h)).isSome) (lying : Bool)
    (bounds : Bounds) : shape? names lying h bounds = some (shape names lying h bounds) := by
  obtain ⟨id, hid⟩ := Option.isSome_iff_exists.mp hid
  rw [shape?, hid, Option.map_some, shape, Names.id_of_id? hid]

theorem edge?_eq {h : Handle} (hid : (names.id? (.element h)).isSome) (route : Route) :
    edge? names h route = some (edge names h route) := by
  obtain ⟨id, hid⟩ := Option.isSome_iff_exists.mp hid
  rw [edge?, hid, Option.map_some, edge, Names.id_of_id? hid]

/-! ## Shapes and edges of one process -/

/-- Where pool and nodes have names, no shape is left out. -/
theorem shapes_eq (hboxes : row.boxes.map Prod.fst = p.nodes)
    (hids : ∀ h ∈ p.pool.toList ++ p.nodes, (names.id? (.element h)).isSome) :
    shapes names p row =
      (p.pool.bind fun pool => row.poolBounds.map (shape names true pool)).toList ++
        row.boxes.map fun box => shape names false box.1 box.2 := by
  have hpool : (p.pool.bind fun pool => row.poolBounds.bind (shape? names true pool)) =
      p.pool.bind fun pool => row.poolBounds.map (shape names true pool) := by
    refine Option.bind_congr fun pool hpool => ?_
    have hid := hids pool (List.mem_append_left _ (Option.mem_toList.mpr hpool))
    rw [Option.map_eq_bind]
    exact Option.bind_congr fun bounds _ => shape?_eq hid true bounds
  have hnodes : (row.boxes.filterMap fun box => shape? names false box.1 box.2) =
      row.boxes.map fun box => shape names false box.1 box.2 := by
    rw [← List.filterMap_eq_map']
    refine List.filterMap_congr fun box hbox => shape?_eq (hids box.1 ?_) false box.2
    rw [← hboxes]
    exact List.mem_append_right _ (List.mem_map_of_mem hbox)
  rw [← hpool, ← hnodes]
  rfl

theorem edges_eq {boxes : Boxes} {hs : List Handle}
    (hids : ∀ h ∈ hs, (names.id? (.element h)).isSome) :
    edges m names boxes hs = hs.filterMap fun h =>
      (m.connection? h).map fun c => edge names h (boxes.route c.source.bound c.target.bound) := by
  refine List.filterMap_congr fun h hh => ?_
  rw [Option.map_eq_bind]
  exact Option.bind_congr fun c _ => edge?_eq (hids h hh) _

/-- Shapes tell pools from nodes, and pools come first. -/
theorem shapes_map {f : Shape → β} {k : Bool → Handle → β}
    (hf : ∀ lying h bounds, f (shape names lying h bounds) = k lying h)
    (hboxes : row.boxes.map Prod.fst = p.nodes)
    (hpool : row.poolBounds.isSome = (p.pool.isSome && !p.nodes.isEmpty))
    (hids : ∀ h ∈ p.pool.toList ++ p.nodes, (names.id? (.element h)).isSome) :
    (shapes names p row).map f = (boxedPool p).map (k true) ++ p.nodes.map (k false) := by
  have hnodes : (row.boxes.map fun box => shape names false box.1 box.2).map f =
      p.nodes.map (k false) := by
    rw [List.map_map, ← hboxes, List.map_map]
    exact List.map_congr_left fun box _ => hf false box.1 box.2
  have hpools : (p.pool.bind fun pool => row.poolBounds.map (shape names true pool)).toList.map f =
      (boxedPool p).map (k true) := by
    rw [boxedPool]
    cases hp : p.pool with
    | none => simp
    | some pool =>
      rw [hp, Option.isSome_some, Bool.true_and] at hpool
      cases hn : p.nodes.isEmpty with
      | true =>
        rw [hn, Bool.not_true, Option.isSome_eq_false_iff, Option.isNone_iff_eq_none] at hpool
        rw [hpool]
        rfl
      | false =>
        rw [hn, Bool.not_false] at hpool
        obtain ⟨bounds, hbounds⟩ := Option.isSome_iff_exists.mp hpool
        rw [hbounds]
        exact congrArg (fun x => [x]) (hf true pool bounds)
  rw [shapes_eq hboxes hids, List.map_append, hpools, hnodes]

theorem edges_map {f : Edge → β} {k : Handle → β} (hf : ∀ h route, f (edge names h route) = k h)
    {boxes : Boxes} {hs : List Handle} (hc : ∀ h ∈ hs, m.isConnection h = true)
    (hids : ∀ h ∈ hs, (names.id? (.element h)).isSome) :
    (edges m names boxes hs).map f = hs.map k := by
  rw [edges_eq hids]
  refine map_filterMap_eq fun h hh => ?_
  obtain ⟨c, hc⟩ := Option.isSome_iff_exists.mp (hc h hh)
  exact ⟨_, by rw [hc, Option.map_some], hf h _⟩

/-! ## The whole diagram -/

variable {placement : Placement}

theorem mem_namedHandles_of_mem_processes {q : ProcessOutline}
    (hq : q ∈ (Partition.ofModel m).processes) {h : Handle} (hh : h ∈ q.pool.toList ++ q.nodes) :
    h ∈ namedHandles m := by
  rcases List.mem_append.mp hh with hpool | hnode
  · exact mem_namedHandles_of_mem_busyPools
      (Partition.pool_mem_busyPools hq (Option.mem_toList.mp hpool))
  · exact mem_namedHandles_of_isNode (Partition.isNode_of_mem_nodes hq hnode)

theorem allShapes_map {f : Shape → β} {k : Bool → Handle → β}
    (hf : ∀ lying h bounds, f (shape (Names.ofModel m) lying h bounds) = k lying h) :
    (allShapes (Names.ofModel m) (Partition.ofModel m)
        (.ofPartition m (Partition.ofModel m) placement)).map f =
      (Partition.ofModel m).processes.flatMap fun q =>
        (boxedPool q).map (k true) ++ q.nodes.map (k false) := by
  rw [allShapes, List.map_flatMap]
  refine flatMap_zip_mapIdx_eq fun i p hp => ?_
  exact shapes_map hf (Layout.boxes_row hp) (Layout.poolBounds_row hp) fun h hh =>
    Names.id?_isSome (mem_namedHandles_of_mem_processes hp hh)

/-- What is read off shapes of pools as off shapes of nodes is read off all that has a box. -/
theorem allShapes_map_boxed {f : Shape → β} {k : Handle → β}
    (hf : ∀ lying h bounds, f (shape (Names.ofModel m) lying h bounds) = k h) :
    (allShapes (Names.ofModel m) (Partition.ofModel m)
        (.ofPartition m (Partition.ofModel m) placement)).map f =
      ((Partition.ofModel m).processes.flatMap boxed).map k := by
  rw [allShapes_map (k := fun _ => k) hf, List.map_flatMap]
  exact List.flatMap_congr fun q _ => List.map_append.symm

theorem allEdges_map {f : Edge → β} {k : Handle → β}
    (hf : ∀ h route, f (edge (Names.ofModel m) h route) = k h) :
    (allEdges m (Names.ofModel m) (Partition.ofModel m)
        (.ofPartition m (Partition.ofModel m) placement)).map f =
      ((Partition.ofModel m).flows ++ (Partition.ofModel m).messageFlows).map k := by
  rw [allEdges, List.map_append, List.map_append, Partition.flows, List.map_flatMap,
    List.map_flatMap, edges_map hf (fun h hh => isConnection_of_mem_messageFlows hh) fun h hh =>
      Names.id?_isSome (mem_namedHandles_of_isConnection (isConnection_of_mem_messageFlows hh))]
  congr 1
  refine flatMap_zip_mapIdx_eq fun i p hp => ?_
  have hconnections : ∀ h ∈ p.flows, m.isConnection h = true :=
    fun h hh => isConnection_of_isFlow (Partition.isFlow_of_mem_flows hp hh)
  exact edges_map hf hconnections fun h hh =>
    Names.id?_isSome (mem_namedHandles_of_isConnection (hconnections h hh))

variable {planeElement : String} {d : Diagram}

theorem eq_of_diagram? {p : Partition} {l : Layout}
    (hd : diagram? m names p l planeElement = some d) :
    d = ⟨names.id .diagram, names.id .plane, planeElement, allShapes names p l,
      allEdges m names p l⟩ := by
  rw [diagram?] at hd
  split at hd
  next => cases hd
  next => exact (Option.some.inj hd).symm

theorem ids_diagram? (hd : diagram? m (Names.ofModel m) (Partition.ofModel m)
      (.ofPartition m (Partition.ofModel m) placement) planeElement = some d) :
    d.ids = (Names.ofModel m).id .diagram :: (Names.ofModel m).id .plane ::
      (drawnHandles m).map fun h => Identifier.drawn ((Names.ofModel m).id (.element h)) := by
  rw [eq_of_diagram? hd, Diagram.ids, drawnHandles, List.map_append, allShapes_map_boxed shape_id,
    allEdges_map edge_id]

/-- A diagram refers to what it draws and to what it is on. -/
theorem references_diagram? (hd : diagram? m (Names.ofModel m) (Partition.ofModel m)
      (.ofPartition m (Partition.ofModel m) placement) planeElement = some d) :
    d.references =
      planeElement :: (drawnHandles m).map fun h => (Names.ofModel m).id (.element h) := by
  rw [eq_of_diagram? hd, Diagram.references, drawnHandles, List.map_append,
    allShapes_map_boxed shape_elementRef, allEdges_map edge_elementRef]

end
end Assembly
end Bpmn
