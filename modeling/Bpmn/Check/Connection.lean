import Bpmn.Diagnostic.Report
import Bpmn.Model.Tree

/-!
# Connections

Every end of a connection has to be bound.  A message flow joins two different pools; any other
connection stays within one pool, or outside all of them.  A connection from a node to itself is
only worth a warning.
-/

namespace Bpmn.Check

def nameOrMark (m : Model) (h : Handle) : String := (m.name? h).getD "?"

/-- What to do about an end whose text means no node. -/
def bindingHint (connector : Connector) : String :=
  if connector.isMessageFlow then
    "message flows can only reference nodes declared inside a pool"
  else
    "declare the node in the same pool, or at the top level for unpooled connections"

def unresolved (h : Handle) (c : Connection) (endpoint : Endpoint) : Diagnostic :=
  let text := (c.reference endpoint).text
  { severity := .error
    code := some .unresolvedReference
    message := s!"unresolved {endpoint.word} reference `{text}`"
    labels := [.primary h (some (.ofEndpoint endpoint)) s!"no node named `{text}` is visible here"]
    help := some (bindingHint c.connector) }

def endOutsidePools (m : Model) (h : Handle) (endpoint : Endpoint) (node : Handle) : Diagnostic :=
  let name := nameOrMark m node
  { severity := .error
    code := some .endOutsidePools
    message := s!"message flow {endpoint.word} `{name}` is not inside a pool"
    labels :=
      [.primary h (some (.ofEndpoint endpoint)) "endpoint outside of every pool",
        .secondary node (some .name) "declared here"]
    help := some "message flows connect nodes of two different pools" }

def withinOnePool (m : Model) (h : Handle) (pool : Handle) : Diagnostic :=
  let name := nameOrMark m pool
  { severity := .error
    code := some .withinOnePool
    message := s!"message flow stays within pool `{name}`"
    labels :=
      [.primary h none "both endpoints share one pool",
        .secondary pool (some .name) "pool declared here"]
    help := some "use a sequence flow `-->` inside a pool" }

def crossesPools (m : Model) (h : Handle) (c : Connection) (fromPool toPool : Handle) :
    Diagnostic :=
  let first := nameOrMark m fromPool
  let second := nameOrMark m toPool
  { severity := .error
    code := some .crossesPools
    message := s!"{c.connector.noun} crosses from pool `{first}` to pool `{second}`"
    labels := [.primary h (some .target) "target lives in another pool"]
    help := some "use a message flow `~>` to connect different pools" }

def mixesPooling (m : Model) (h : Handle) (c : Connection) (pooled unpooled : Handle) :
    Diagnostic :=
  let inside := nameOrMark m pooled
  let outside := nameOrMark m unpooled
  { severity := .error
    code := some .mixesPooling
    message := s!"{c.connector.noun} connects pooled node `{inside}` with unpooled node `{outside}`"
    labels :=
      [.primary h none "mixes pooled and unpooled nodes",
        .secondary unpooled (some .name) "declared outside of every pool"] }

def selfLoop (m : Model) (h : Handle) (c : Connection) (node : Handle) : Diagnostic :=
  let name := nameOrMark m node
  { severity := .warning
    code := some .selfLoop
    message := s!"{c.connector.noun} connects `{name}` to itself"
    labels := [.primary h none "self-loop"] }

def placement? (m : Model) (h : Handle) (c : Connection) (source target : Handle) :
    Option Diagnostic :=
  if c.isMessageFlow then
    match m.poolOf? source, m.poolOf? target with
    | none, _ => some (endOutsidePools m h .source source)
    | some _, none => some (endOutsidePools m h .target target)
    | some a, some b => if a = b then some (withinOnePool m h a) else none
  else
    match m.poolOf? source, m.poolOf? target with
    | some a, some b => if a = b then none else some (crossesPools m h c a b)
    | some _, none => some (mixesPooling m h c source target)
    | none, some _ => some (mixesPooling m h c target source)
    | none, none => none

def binding (h : Handle) (c : Connection) (r : Report) (endpoint : Endpoint) : Report :=
  match (c.reference endpoint).bound with
  | some _ => r
  | none => r.emit (unresolved h c endpoint)

def connection (m : Model) (h : Handle) (r : Report) : Report :=
  match m.connection? h with
  | none => r
  | some c =>
    let r := Endpoint.both.foldl (binding h c) r
    match c.source.bound, c.target.bound with
    | some source, some target =>
      let r :=
        match placement? m h c source target with
        | some diagnostic => r.emit diagnostic
        | none => r
      if source = target then r.emit (selfLoop m h c source) else r
    | _, _ => r

end Bpmn.Check
