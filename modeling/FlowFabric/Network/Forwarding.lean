import FlowFabric.Network.Selection

/-! Hop by hop, routing offers candidate links, a selection takes one, and an entry at the node
records where the flow goes next. Searches that fail leave no entry of their own behind. -/

namespace FlowFabric

namespace Network

variable {R : Type} [Quantity R]

/-- The hop chosen at a node towards a host, `none` if routing offers no link. -/
def choose? (select : Selection R) (net : Network R) (here dst : NodeId) (key : FlowKey) :
    Except (Fault R) (Option Hop) :=
  match (net.routing here).route dst with
  | [] => .ok none
  | c :: cs =>
    match (select net here dst key (c :: cs)).bind (Path.hop? net.topology here) with
    | some hop => .ok (some hop)
    | none => .error (.breach .outOfRange)

/-- Continues a path to its destination and sets the entries on the way. `laid` are the nodes whose
entries were set so far. Every hop reaches a node that the path has not visited, so the number of
nodes is budget enough. -/
def lay (select : Selection R) (key : FlowKey) (dst : NodeId) :
    Nat → Network R → List NodeId → Path → Except (Fault R) Path × Network R
  | budget, net, laid, path =>
    if path.last = dst then (.ok path, net)
    else
      match budget, net.choose? select path.last dst key with
      -- Whatever goes wrong, the entries of this attempt are taken back.
      | _, .error e => (.error e, net.dropAll key laid)
      | _, .ok none => (.error (.noRoute path.last dst), net.dropAll key laid)
      | 0, .ok (some hop) => (.error (.routingLoop hop.target key), net.dropAll key laid)
      | budget + 1, .ok (some hop) =>
        if hop.target ∈ path.nodes then (.error (.routingLoop hop.target key), net.dropAll key laid)
        else
          lay select key dst budget (net.setNext path.last key hop.target) (laid ++ [path.last])
            (path.push hop)

def layFrom (select : Selection R) (net : Network R) (key : FlowKey) (dst : NodeId) (path : Path) :
    Except (Fault R) Path × Network R :=
  lay select key dst net.topology.nodes.size net [] path

/-- Finds a path for a flow and sets its entries.
Within one host it is the hop from the host to itself. -/
def build (select : Selection R) (net : Network R) (key : FlowKey) (src dst : NodeId) :
    Except (Fault R) Path × Network R :=
  match net.topology.checkHost src, net.topology.checkHost dst with
  | .error e, _ => (.error e, net)
  | .ok _, .error e => (.error e, net)
  | .ok _, .ok _ =>
    if src = dst then
      match Path.hopBetween? net.topology src src with
      | none => (.error (.notAHost src), net)
      | some hop => (.ok ⟨src, [hop]⟩, net.setNext src key src)
    else layFrom select net key dst ⟨src, []⟩

/-- Removes entries along the way that they describe and lists the nodes that had them. Each step
uses up an entry, so their number is budget enough. -/
def removeAlong (key : FlowKey) : Nat → Network R → List NodeId → NodeId → List NodeId × Network R
  | 0, net, removed, _ => (removed, net)
  | budget + 1, net, removed, here =>
    match net.next? here key with
    | none => (removed, net)
    | some next =>
      let net := net.dropNext here key
      let removed := removed ++ [here]
      if next ∈ removed then (removed, net) else removeAlong key budget net removed next

def removeFrom (net : Network R) (key : FlowKey) (start : NodeId) : List NodeId × Network R :=
  removeAlong key net.forwarding.size net [] start

/-- Removes the entries of a flow everywhere and counts them. -/
def clear (net : Network R) (key : FlowKey) : Nat × Network R :=
  ((net.forwarding.keys.filter fun e => e.2 == key).length,
    net.withForwarding (net.forwarding.filter fun e => e.1.2 != key))

omit [Quantity R] in
/-- Clearing removes exactly the entries of the flow. -/
theorem next?_clear (net : Network R) (key key' : FlowKey) (n : NodeId) :
    (net.clear key).2.next? n key' = if key' = key then none else net.next? n key' := by
  have h := Table.get?_filter_key (fun e : NodeId × FlowKey => e.2 != key) net.forwarding (n, key')
  show Table.get? _ _ = _
  rw [clear, withForwarding, h]
  by_cases hk : key' = key <;> simp [hk, next?]

/-- Gives a flow a new path. All entries of the old one go first, so that the two never mix. -/
def rebuild (select : Selection R) (net : Network R) (key : FlowKey) (old src dst : NodeId) :
    Except (Fault R) Path × Network R :=
  if net.topology.containsNode old then
    build select ((net.removeFrom key old).2.clear key).2 key src dst
  else (.error (.breach .outOfRange), net)

/-- Follows a path as long as its entries agree with what would be chosen now, and lays the rest
anew from the first node where they do not. Tells whether anything changed. -/
def follow (select : Selection R) (key : FlowKey) (dst : NodeId) :
    Nat → Network R → Path → Except (Fault R) Bool × Network R
  | budget, net, path =>
    let here := path.last
    if here = dst then (.ok false, net)
    else
      match net.choose? select here dst key with
      | .error e => (.error e, net)
      | .ok chosen =>
        -- An entry that leads back onto the path is not kept, whatever would be chosen.
        let agreed := chosen.filter fun hop =>
          net.next? here key == some hop.target && decide (hop.target ∉ path.nodes)
        match budget, agreed with
        | budget + 1, some hop => follow select key dst budget net (path.push hop)
        | _, _ =>
          -- The choice here is made once more by `layFrom`, in the network without the old entries.
          match layFrom select (net.removeFrom key here).2 key dst path with
          | (.ok _, net) => (.ok true, net)
          | (.error e, net) => (.error e, net)

/-- Adapts the path of a flow to what would be chosen now. -/
def update (select : Selection R) (net : Network R) (key : FlowKey) (src dst : NodeId) :
    Except (Fault R) Bool × Network R :=
  match net.topology.checkHost src, net.topology.checkHost dst with
  | .error e, _ => (.error e, net)
  | .ok _, .error e => (.error e, net)
  | .ok _, .ok _ =>
    if src = dst then (.ok false, net)
    else follow select key dst net.topology.nodes.size net ⟨src, []⟩

/-- Reads a path back from the entries of a flow. -/
def walkAlong (net : Network R) (key : FlowKey) (dst : NodeId) : Nat → Path → Except (Fault R) Path
  | budget, path =>
    let here := path.last
    match (net.next? here key).bind (Path.hopBetween? net.topology here) with
    | none => .error (.noPath here key)
    | some hop =>
      -- Only a flow within one host stays where it is.
      if hop.target = here then
        if here = dst then .ok (path.push hop) else .error (.noPath here key)
      else if hop.target ∈ path.nodes then .error (.routingLoop hop.target key)
      else if hop.target = dst then .ok (path.push hop)
      else
        match budget with
        | 0 => .error (.routingLoop hop.target key)
        | budget + 1 => walkAlong net key dst budget (path.push hop)

/-- The path that the entries of a flow describe from one host to another. -/
def walk (net : Network R) (key : FlowKey) (src dst : NodeId) : Except (Fault R) Path :=
  if net.topology.containsNode src then walkAlong net key dst net.topology.nodes.size ⟨src, []⟩
  else .error (.breach .outOfRange)

/-- The path of a flow: read back from its entries where they lead to the destination, found anew
where they do not. With `dynamic`, existing entries are first adapted to what would be chosen
now. -/
def resolve (select : Selection R) (net : Network R) (key : FlowKey) (src dst : NodeId)
    (dynamic : Bool) : Except (Fault R) Path × Network R :=
  match net.topology.checkHost src, net.topology.checkHost dst with
  | .error e, _ => (.error e, net)
  | .ok _, .error e => (.error e, net)
  | .ok _, .ok _ =>
    match net.next? src key with
    | none => build select net key src dst
    | some _ =>
      let (outcome, net) := if dynamic then update select net key src dst else (.ok false, net)
      match outcome with
      | .error e => (.error e, net)
      | .ok _ =>
        match walk net key src dst with
        | .ok path => (.ok path, net)
        -- The entries are those of an earlier placement of the machines.
        | .error _ => rebuild select net key src src dst

end Network

end FlowFabric
