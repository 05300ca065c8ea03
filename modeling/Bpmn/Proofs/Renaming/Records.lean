import Bpmn.Diagnostic.Report
import Bpmn.Document.Basic
import Bpmn.Naming.Plan
import Bpmn.Reference.Linking
import Bpmn.Proofs.Lists
import Bpmn.Proofs.Rebinding
import Bpmn.Proofs.Tables

/-!
# Records under other handles

A handle says when an element was declared, and records point at elements by handles.  `rename`
puts other handles for those in a record and leaves the rest as it is.  Only the handles that a
record holds matter, so two renamings that agree on these make the same of it (`rename_congr`).
-/

namespace Bpmn

variable (s : Handle → Handle)

/-! ## Connections -/

namespace Connection

def rename (c : Connection) : Connection :=
  { c with
    source := { c.source with bound := c.source.bound.map s }
    target := { c.target with bound := c.target.bound.map s } }

@[simp] theorem connector_rename (c : Connection) : (c.rename s).connector = c.connector := rfl

@[simp] theorem isMessageFlow_rename (c : Connection) :
    (c.rename s).isMessageFlow = c.isMessageFlow := rfl

@[simp] theorem unbound_rename (c : Connection) : (c.rename s).unbound = c.unbound := rfl

@[simp] theorem text_rename (c : Connection) (endpoint : Endpoint) :
    ((c.rename s).reference endpoint).text = (c.reference endpoint).text := by
  cases endpoint <;> rfl

@[simp] theorem bound_rename (c : Connection) (endpoint : Endpoint) :
    ((c.rename s).reference endpoint).bound = (c.reference endpoint).bound.map s := by
  cases endpoint <;> rfl

variable {s} in
theorem rename_congr {t : Handle → Handle} {c : Connection}
    (h : ∀ endpoint, ∀ b ∈ (c.reference endpoint).bound, s b = t b) : c.rename s = c.rename t := by
  refine eq_of_unbound rfl fun endpoint => ?_
  rw [bound_rename, bound_rename]
  exact Option.map_congr (h endpoint)

end Connection

/-! ## Diagnostics -/

def Label.rename (l : Label) : Label := { l with element := s l.element }

namespace Diagnostic

def rename (d : Diagnostic) : Diagnostic := { d with labels := d.labels.map (Label.rename s) }

variable {s} in
theorem rename_congr {t : Handle → Handle} {d : Diagnostic}
    (h : ∀ l ∈ d.labels, s l.element = t l.element) : d.rename s = d.rename t := by
  rw [rename, rename]
  congr 1
  refine List.map_congr_left fun l hl => ?_
  rw [Label.rename, Label.rename, h l hl]

end Diagnostic

def Rejection.rename (r : Rejection) : Rejection := ⟨r.diagnostics.map (Diagnostic.rename s)⟩

namespace Linkage

def rename (l : Linkage) : Linkage := { l with unresolved := l.unresolved.map (Prod.map s id) }

variable {s} in
theorem rename_congr {t : Handle → Handle} {l : Linkage}
    (h : ∀ place ∈ l.unresolved, s place.1 = t place.1) : l.rename s = l.rename t := by
  rw [rename, rename]
  congr 1
  refine List.map_congr_left fun place hp => ?_
  rw [Prod.map, Prod.map, h place hp]

end Linkage

/-! ## Processes and rows -/

namespace ProcessOutline

def rename (p : ProcessOutline) : ProcessOutline :=
  ⟨p.pool.map s, p.nodes.map s, p.flows.map s⟩

@[simp] theorem isEmpty_rename (p : ProcessOutline) : (p.rename s).isEmpty = p.isEmpty := by
  rw [isEmpty, rename, List.isEmpty_map, List.isEmpty_map, isEmpty]

/-- All that is in a process, and the pool around it. -/
def handles (p : ProcessOutline) : List Handle := p.pool.toList ++ p.nodes ++ p.flows

variable {s} in
theorem rename_congr {t : Handle → Handle} {p : ProcessOutline}
    (h : ∀ x ∈ p.handles, s x = t x) : p.rename s = p.rename t := by
  simp only [handles, List.mem_append, Option.mem_toList] at h
  rw [rename, rename, Option.map_congr fun x hx => h x (.inl (.inl hx)),
    List.map_congr_left fun x hx => h x (.inl (.inr hx)),
    List.map_congr_left fun x hx => h x (.inr hx)]

end ProcessOutline

namespace Partition

def rename (p : Partition) : Partition :=
  ⟨p.processes.map (ProcessOutline.rename s), p.messageFlows.map s⟩

def handles (p : Partition) : List Handle :=
  p.processes.flatMap ProcessOutline.handles ++ p.messageFlows

variable {s} in
theorem rename_congr {t : Handle → Handle} {p : Partition}
    (h : ∀ x ∈ p.handles, s x = t x) : p.rename s = p.rename t := by
  rw [rename, rename]
  congr 1
  · refine List.map_congr_left fun q hq => ProcessOutline.rename_congr fun x hx => h x ?_
    exact List.mem_append_left _ (List.mem_flatMap.mpr ⟨q, hq, hx⟩)
  · exact List.map_congr_left fun x hx => h x (List.mem_append_right _ hx)

end Partition

def Boxes.rename (boxes : Boxes) : Boxes := boxes.map (Prod.map s id)

namespace Row

def rename (r : Row) : Row := { r with boxes := r.boxes.rename s }

variable {s} in
theorem rename_congr {t : Handle → Handle} {r : Row}
    (h : ∀ x ∈ r.boxes.map Prod.fst, s x = t x) : r.rename s = r.rename t := by
  rw [rename, rename]
  congr 1
  refine List.map_congr_left fun box hbox => ?_
  rw [Prod.map, Prod.map, h box.1 (List.mem_map_of_mem hbox)]

end Row

namespace Layout

def rename (l : Layout) : Layout := ⟨l.rows.map (Row.rename s)⟩

variable {s} in
theorem rename_congr {t : Handle → Handle} {l : Layout}
    (h : ∀ row ∈ l.rows, ∀ x ∈ row.boxes.map Prod.fst, s x = t x) : l.rename s = l.rename t := by
  rw [rename, rename, List.map_congr_left fun row hrow => Row.rename_congr (h row hrow)]

variable {s} in
theorem boxes_rename (hs : Function.Injective s) (l : Layout) :
    (l.rename s).boxes = l.boxes.rename s := by
  rw [boxes, rename, List.flatMap_map, Boxes.rename, boxes, Table.map_insertAll hs,
    List.map_flatMap]
  rfl

theorem zip_rename (p : Partition) (l : Layout) :
    (p.rename s).processes.zip (l.rename s).rows =
      (p.processes.zip l.rows).map (Prod.map (ProcessOutline.rename s) (Row.rename s)) :=
  List.zip_map

end Layout

/-- Where no two handles become one, a renamed end meets the renamed box that it met. -/
theorem Boxes.route_rename {s : Handle → Handle} (hs : Function.Injective s) (boxes : Boxes)
    (source target : Option Handle) :
    (boxes.rename s).route (source.map s) (target.map s) = boxes.route source target := by
  have hbox : ∀ h : Option Handle,
      ((h.map s).bind fun x => List.lookup x (boxes.rename s)) =
        h.bind fun x => List.lookup x boxes := by
    intro h
    rw [Option.bind_map]
    exact Option.bind_congr fun x _ => lookup_map_key hs boxes x
  unfold route
  simp only [hbox]

/-! ## Names -/

namespace Entity

def rename : Entity → Entity
  | .process pool => .process (pool.map s)
  | .laneSet container => .laneSet (s container)
  | .element h => .element (s h)
  | .eventDefinition node => .eventDefinition (s node)
  | .document => .document
  | .collaboration => .collaboration
  | .diagram => .diagram
  | .plane => .plane

variable {s} in
theorem rename_injective (hs : Function.Injective s) : Function.Injective (rename s) := by
  intro a b hab
  cases a with
  | process pool =>
    cases b with
    | process other => exact congrArg process (Option.map_injective hs (process.inj hab))
    | _ => cases hab
  | laneSet container =>
    cases b with
    | laneSet other => exact congrArg laneSet (hs (laneSet.inj hab))
    | _ => cases hab
  | element h =>
    cases b with
    | element other => exact congrArg element (hs (element.inj hab))
    | _ => cases hab
  | eventDefinition node =>
    cases b with
    | eventDefinition other => exact congrArg eventDefinition (hs (eventDefinition.inj hab))
    | _ => cases hab
  | document | collaboration | diagram | plane =>
    cases b with
    | document | collaboration | diagram | plane => exact hab
    | _ => cases hab

end Entity
end Bpmn
