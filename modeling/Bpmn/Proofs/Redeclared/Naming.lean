import Bpmn.Proofs.Naming.Names
import Bpmn.Proofs.Redeclared.Tree
import Bpmn.Proofs.Recut.Placement

/-!
# The same names in another order of declaration

Entities are named in the order of a plan, which follows the tree, and an identifier is made from a
base and a count.  So a model that was declared in another order has the same plan under other
handles, and each entity the identifier that it had (`Transports.names`).
-/

namespace Bpmn

/-! ## Registries -/

namespace Registry

variable {α β : Type} {f : α → β}

/-- The same identifiers in the hands of others. -/
def mapKeys (f : α → β) (r : Registry α) : Registry β :=
  { r with assigned := r.assigned.map (Prod.map f id) }

variable [DecidableEq α] [DecidableEq β] (hf : Function.Injective f)
include hf

theorem assign_mapKeys (r : Registry α) (a : α) (base : String) :
    ((r.mapKeys f).assign (f a) base).2 = (r.assign a base).2.mapKeys f := by
  have hid : (r.mapKeys f).id? (f a) = r.id? a := lookup_map_key hf r.assigned a
  rw [assign, assign, hid]
  cases r.id? a with
  | some id => rfl
  | none => simp [mapKeys, fresh]

theorem assignAll_mapKeys (r : Registry α) (requests : List (α × String)) :
    (r.mapKeys f).assignAll (requests.map (Prod.map f id)) =
      (r.assignAll requests).mapKeys f := by
  induction requests generalizing r with
  | nil => rfl
  | cons request rest ih =>
    show ((r.mapKeys f).assign (f request.1) request.2).2.assignAll _ = _
    rw [assign_mapKeys hf, ih]
    rfl

end Registry

/-! ## Plans and names under other handles -/

namespace Naming

/-- The same for entities under other handles. -/
def rename (s : Handle → Handle) (plan : List (Entity × String)) : List (Entity × String) :=
  plan.map (Prod.map (Entity.rename s) id)

theorem rename_append (s : Handle → Handle) (a b : List (Entity × String)) :
    rename s (a ++ b) = rename s a ++ rename s b := List.map_append

/-- What is named for each of some things is renamed thing by thing. -/
theorem flatMap_rename {s : Handle → Handle} {α β : Type} {r : α → β}
    {f : β → List (Entity × String)} {g : α → List (Entity × String)} {list : List α}
    (h : ∀ x ∈ list, f (r x) = rename s (g x)) :
    (list.map r).flatMap f = rename s (list.flatMap g) := by
  rw [List.flatMap_map, rename, List.map_flatMap]
  exact List.flatMap_congr h

end Naming

namespace Names

open Naming

variable {e : Handle → Handle} (he : Function.Injective e)
include he

theorem id?_rename (names : Names) (x : Entity) :
    id? (rename e names) (x.rename e) = names.id? x :=
  lookup_map_key (Entity.rename_injective he) names x

theorem id_rename (names : Names) (x : Entity) : id (rename e names) (x.rename e) = names.id x := by
  rw [id, id?_rename he, id]

theorem upTo_rename (names : Names) (x : Entity) :
    upTo (rename e names) (x.rename e) = rename e (names.upTo x) := by
  induction names with
  | nil => rfl
  | cons entry rest ih =>
    obtain ⟨first, identifier⟩ := entry
    show (first.rename e, identifier) ::
      (if first.rename e = x.rename e then [] else upTo (rename e rest) (x.rename e)) = _
    simp only [ih, upTo, (Entity.rename_injective he).eq_iff]
    split <;> rfl

theorem visibleFrom?_rename (names : Names) (viewer h : Handle) :
    visibleFrom? (rename e names) (e viewer) (e h) = names.visibleFrom? viewer h := by
  have hupTo := upTo_rename he names (.element viewer)
  have hid := id?_rename he (names.upTo (.element viewer)) (.element h)
  rw [← hupTo] at hid
  exact hid

end Names

namespace Model.Transports

open Naming

variable {e : Handle → Handle} {m n : Model} (hr : Transports e m n)
include hr

/-! ## The parts of a plan -/

theorem named (h : Handle) : named n (e h) = rename e (named m h) := by
  rw [Naming.named, Naming.named, hr.name?, rename, List.map_map]
  rfl

theorem ofFlow (h : Handle) : ofFlow n (e h) = rename e (ofFlow m h) := by
  rw [Naming.ofFlow, Naming.ofFlow, hr.connection?, Option.toList_map, List.map_map, rename,
    List.map_map]
  rfl

theorem ofEvent (h : Handle) : ofEvent n (e h) = rename e (ofEvent m h) := by
  rw [Naming.ofEvent, Naming.ofEvent, hr.node?, rename, List.map_map]
  rfl

theorem ofLaneSet (h : Handle) :
    ofLaneSet n (e h) ((n.children (e h)).map n.branch) =
      rename e (ofLaneSet m h ((m.children h).map m.branch)) := by
  have hany : (((n.children (e h)).map n.branch).any fun b => n.isLane b.handle) =
      ((m.children h).map m.branch).any fun b => m.isLane b.handle := by
    simp only [hr.children, List.any_map, Function.comp_def, handle_branch, hr.isLane]
  rw [Naming.ofLaneSet, Naming.ofLaneSet, hany]
  split <;> rfl

theorem ofLanes (h : Handle)
    (hc : ∀ c ∈ m.children h, ofLane n (n.branch (e c)) = rename e (ofLane m (m.branch c))) :
    ofLanes n ((n.children (e h)).map n.branch) =
      rename e (ofLanes m ((m.children h).map m.branch)) := by
  rw [ofLanes_eq_flatMap, ofLanes_eq_flatMap, List.flatMap_map, List.flatMap_map, hr.children]
  exact flatMap_rename hc

theorem ofLane (h : Handle) : ofLane n (n.branch (e h)) = rename e (ofLane m (m.branch h)) := by
  induction h using inward (m := m) with
  | step h ih =>
    rw [branch_eq, branch_eq, Naming.ofLane, Naming.ofLane, hr.isLane, hr.named, hr.ofLaneSet,
      hr.ofLanes h ih, ← rename_append, ← rename_append]
    split <;> rfl

theorem ofPoolLanes (p : Handle) : ofPoolLanes n (e p) = rename e (ofPoolLanes m p) := by
  rw [Naming.ofPoolLanes, Naming.ofPoolLanes, branch_eq, branch_eq, Branch.children,
    Branch.children, hr.ofLaneSet, hr.ofLanes p fun c _ => hr.ofLane c, rename_append]

theorem ofProcess (p : ProcessOutline) : ofProcess n (p.rename e) = rename e (ofProcess m p) := by
  have hpool : (p.rename e).pool.toList.flatMap (Naming.ofPoolLanes n) =
      rename e (p.pool.toList.flatMap (Naming.ofPoolLanes m)) := by
    rw [ProcessOutline.rename, Option.toList_map]
    exact flatMap_rename fun pool _ => hr.ofPoolLanes pool
  have hevents : (p.rename e).nodes.flatMap (Naming.ofEvent n) =
      rename e (p.nodes.flatMap (Naming.ofEvent m)) :=
    flatMap_rename fun h _ => hr.ofEvent h
  have hflows : (p.rename e).flows.flatMap (Naming.ofFlow n) =
      rename e (p.flows.flatMap (Naming.ofFlow m)) :=
    flatMap_rename fun h _ => hr.ofFlow h
  rw [Naming.ofProcess, Naming.ofProcess, hpool, hevents, hflows, ← rename_append,
    ← rename_append]
  rfl

/-! ## The whole plan -/

theorem plan (p : Partition) : plan n (p.rename e) = rename e (plan m p) := by
  have hnodes : (p.rename e).processes.flatMap (fun q => q.nodes.flatMap (Naming.named n)) =
      rename e (p.processes.flatMap fun q => q.nodes.flatMap (Naming.named m)) :=
    flatMap_rename fun q _ => flatMap_rename fun h _ => hr.named h
  have hprocesses : (p.rename e).processes.flatMap (Naming.ofProcess n) =
      rename e (p.processes.flatMap (Naming.ofProcess m)) :=
    flatMap_rename fun q _ => hr.ofProcess q
  have hmessages : (p.rename e).messageFlows.flatMap (Naming.ofFlow n) =
      rename e (p.messageFlows.flatMap (Naming.ofFlow m)) :=
    flatMap_rename fun h _ => hr.ofFlow h
  have hpools : (p.rename e).processes.flatMap (fun q => q.pool.toList.flatMap (Naming.named n)) =
      rename e (p.processes.flatMap fun q => q.pool.toList.flatMap (Naming.named m)) := by
    refine flatMap_rename fun q _ => ?_
    rw [ProcessOutline.rename, Option.toList_map]
    exact flatMap_rename fun h _ => hr.named h
  rw [Naming.plan, Naming.plan, hnodes, hprocesses, hmessages, hpools]
  simp only [rename_append]
  rfl

theorem names : Names.ofModel n = rename e (Names.ofModel m) := by
  have hempty : (Registry.empty : Registry Entity) = Registry.empty.mapKeys (Entity.rename e) := rfl
  rw [Names.ofModel_eq, issue, hr.reshapes.partition, hr.plan, hempty, rename,
    Registry.assignAll_mapKeys (Entity.rename_injective hr.injective)]
  rfl

end Model.Transports
end Bpmn
