import Forge.Common.BreadthFirst
import Forge.Common.Text
import Forge.Graph.BuildGraph
import Mathlib.Data.Finset.Image
import Mathlib.Data.List.Infix

/-!
# The query engine

Queries are expressions over sets of nodes. Their evaluation walks the dependency edges
with four different traversals: a depth-first visit with a shared visited set in either
direction, a recursion that marks the nodes on paths without remembering where it has been,
and a breadth-first search that reconstructs a path from parents.

A hash set yields its members in an unspecified order, and two sets need not agree on it.
`IterationOrder` supplies the order for each position of the expression, so a statement
about all iteration orders covers every behaviour of the hash sets.
-/

namespace Forge.Graph

open Forge.Common

/-- The query language. -/
inductive QueryExpr where
  | target (name : String)
  | all
  | deps (inner : QueryExpr)
  | rdeps (inner : QueryExpr)
  | allPaths (source target : QueryExpr)
  | somePath (source target : QueryExpr)
  | filter (pattern : String) (inner : QueryExpr)
  | union (left right : QueryExpr)
  | intersect (left right : QueryExpr)
  deriving DecidableEq, Repr

/-- The order in which the set at each position of an expression yields its members. -/
structure IterationOrder where
  visit : List Bool → Finset NodeId → List NodeId
  mem_visit : ∀ pos set id, id ∈ visit pos set ↔ id ∈ set
  nodup_visit : ∀ pos set, (visit pos set).Nodup

/-- A graph together with the naming of its payloads. -/
structure GraphQueryEngine (T : Type*) where
  graph : BuildGraph T
  nameResolver : T → String

variable {T : Type*}

/-- Visit a node and, recursively, its neighbours, skipping what was visited before. -/
def collectTransitive (neighbours : NodeId → Except GraphError (List NodeId)) :
    ℕ → NodeId → Finset NodeId → Finset NodeId
  | 0, _, visited => visited
  | fuel + 1, start, visited =>
    if start ∈ visited then visited
    else
      match neighbours start with
      | .error _ => insert start visited
      | .ok next =>
        next.foldl (fun visited id => collectTransitive neighbours fuel id visited)
          (insert start visited)

namespace BuildGraph

/-- Visit a node and its transitive dependencies. -/
def collectTransitiveDeps (g : BuildGraph T) (start : NodeId) (visited : Finset NodeId) :
    Finset NodeId :=
  collectTransitive g.depsOf (g.len + 1) start visited

/-- Visit a node and its transitive dependents. -/
def collectTransitiveRdeps (g : BuildGraph T) (start : NodeId) (visited : Finset NodeId) :
    Finset NodeId :=
  collectTransitive g.dependentsOf (g.len + 1) start visited

/-- Add every node on a path from the current node to the target, and say whether there is
one. -/
def allPathNodesRec (g : BuildGraph T) (target : NodeId) :
    ℕ → NodeId → Finset NodeId → Bool × Finset NodeId
  | 0, _, result => (false, result)
  | fuel + 1, current, result =>
    if current = target then (true, insert current result)
    else
      match g.depsOf current with
      | .error _ => (false, result)
      | .ok deps =>
        deps.foldl (fun (onPath, result) dep =>
          let (found, result) := allPathNodesRec g target fuel dep result
          if found then (true, insert current result) else (onPath, result)) (false, result)

/-- The recursion descends at most once per node of the graph. -/
def findAllPathNodes (g : BuildGraph T) (current target : NodeId) (result : Finset NodeId) :
    Bool × Finset NodeId :=
  allPathNodesRec g target (g.len + 1) current result

/-- The state of the search for a shortest path. -/
structure PathSearch where
  queue : List NodeId
  visited : Finset NodeId
  parent : NodeId → Option NodeId

/-- Queue the unseen dependencies of the current node, with it as their parent. -/
def scanDeps (current : NodeId) : List NodeId → PathSearch → PathSearch
  | [], search => search
  | dep :: rest, search =>
    if dep ∈ search.visited then scanDeps current rest search
    else
      scanDeps current rest
        { queue := search.queue ++ [dep]
          visited := insert dep search.visited
          parent := Function.update search.parent dep (some current) }

/-- Breadth-first search along dependencies, with the path read off the parents. -/
def shortestPathLoop (g : BuildGraph T) (target : NodeId) :
    ℕ → PathSearch → Option (List NodeId)
  | 0, _ => none
  | fuel + 1, search =>
    match search.queue with
    | [] => none
    | current :: queue =>
      if current = target then
        some (followParents search.parent search.visited.card target [target]).reverse
      else
        match g.depsOf current with
        | .error _ => shortestPathLoop g target fuel { search with queue := queue }
        | .ok deps => shortestPathLoop g target fuel (scanDeps current deps { search with queue := queue })

/-- A shortest dependency path between two nodes. -/
def findShortestPath (g : BuildGraph T) (source target : NodeId) : Option (List NodeId) :=
  shortestPathLoop g target (g.len + 1) ⟨[source], {source}, fun _ => none⟩

end BuildGraph

namespace GraphQueryEngine

/-- Whether a node exists and its name contains the pattern. -/
def nameContains (engine : GraphQueryEngine T) (pattern : String) (id : NodeId) : Bool :=
  match engine.graph.node id with
  | some node => decide (pattern.toList <:+: (engine.nameResolver node.payload).toList)
  | none => false

/-- Evaluate an expression, iterating over the set at each position in the given order. -/
def eval (engine : GraphQueryEngine T) (order : IterationOrder) :
    QueryExpr → List Bool → Finset NodeId
  | .target name, _ =>
    ((engine.graph.nodes.filter fun n => engine.nameResolver n.payload == name).map
      (·.id)).toFinset
  | .all, _ => (engine.graph.nodes.map (·.id)).toFinset
  | .deps inner, pos =>
    let targets := order.visit (false :: pos) (eval engine order inner (false :: pos))
    targets.foldl (fun result target => engine.graph.collectTransitiveDeps target result) ∅
  | .rdeps inner, pos =>
    let targets := order.visit (false :: pos) (eval engine order inner (false :: pos))
    targets.foldl (fun result target => engine.graph.collectTransitiveRdeps target result) ∅
  | .allPaths source target, pos =>
    let sources := order.visit (false :: pos) (eval engine order source (false :: pos))
    let targets := order.visit (true :: pos) (eval engine order target (true :: pos))
    sources.foldl (fun result source => targets.foldl (fun result target =>
      (engine.graph.findAllPathNodes source target result).2) result) ∅
  | .somePath source target, pos =>
    let sources := order.visit (false :: pos) (eval engine order source (false :: pos))
    let targets := order.visit (true :: pos) (eval engine order target (true :: pos))
    match sources.findSome? fun source => targets.findSome? fun target =>
      engine.graph.findShortestPath source target with
    | some path => path.toFinset
    | none => ∅
  | .filter pattern inner, pos =>
    (eval engine order inner (false :: pos)).filter fun id => engine.nameContains pattern id
  | .union left right, pos =>
    eval engine order left (false :: pos) ∪ eval engine order right (true :: pos)
  | .intersect left right, pos =>
    eval engine order left (false :: pos) ∩ eval engine order right (true :: pos)

end GraphQueryEngine

/-!
## Parsing of queries

A query is taken apart from the outside: a function name with an opening parenthesis before
it and a closing one behind it are stripped, and the rest is split at commas, wherever they
are, into the arguments. What does not fit is the name of a target, so no text is refused.
-/

/-- Text between the name of a function with its opening parenthesis, and a closing one. -/
def enclosed (start : String) (s : List Char) : Option (List Char) :=
  (stripPrefix start.toList s).bind (stripSuffix [')'])

/-- Two arguments, if there is exactly one comma. -/
def splitPair (args : List Char) : Option (List Char × List Char) :=
  match (args.splitOn ',').map trim with
  | [left, right] => some (left, right)
  | _ => none

/-- Two arguments, split at the first comma. -/
def splitFirst (args : List Char) : Option (List Char × List Char) :=
  (splitOnce ',' args).map fun parts => (trim parts.1, trim parts.2)

/-- A pattern without its quotes. -/
def unquote (s : List Char) : String :=
  String.ofList (trimMatches (· = '\'') (trimMatches (· = '"') s))

/-- A target name without the slashes it starts with. -/
def trimStartSlashes : List Char → List Char
  | '/' :: '/' :: s => trimStartSlashes s
  | s => s

/-- Parse text of less characters than the fuel. -/
def parseWith : ℕ → List Char → Except String QueryExpr
  | 0, _ => .error "out of fuel"
  | fuel + 1, input =>
    let trimmed := trim input
    if trimmed = "//...".toList ∨ trimmed = "*".toList then return .all
    else if let some inner := enclosed "deps(" trimmed then do
      let parsedInner ← parseWith fuel inner
      return .deps parsedInner
    else if let some inner := enclosed "rdeps(" trimmed then do
      let parsedInner ← parseWith fuel inner
      return .rdeps parsedInner
    else if let some (left, right) := (enclosed "allpaths(" trimmed).bind splitPair then do
      let left ← parseWith fuel left
      let right ← parseWith fuel right
      return .allPaths left right
    else if let some (left, right) := (enclosed "somepath(" trimmed).bind splitPair then do
      let left ← parseWith fuel left
      let right ← parseWith fuel right
      return .somePath left right
    else if let some (pattern, inner) := (enclosed "filter(" trimmed).bind splitFirst then do
      let inner ← parseWith fuel inner
      return .filter (unquote pattern) inner
    else return .target (String.ofList (trimStartSlashes trimmed))

/-- Parse a query. -/
def parseQuery (input : String) : Except String QueryExpr :=
  parseWith (input.toList.length + 1) input.toList

/-- What is between the parentheses is shorter. -/
theorem enclosed_length_lt {start : String} {s inner : List Char} (hstart : start.toList ≠ [])
    (henclosed : enclosed start s = some inner) : inner.length < s.length := by
  obtain ⟨rest, hinitial, hsuffix⟩ := Option.bind_eq_some_iff.mp henclosed
  have hrest := stripPrefix_length hinitial
  have hinner := stripSuffix_length_le hsuffix
  have hpos := List.length_pos_iff.mpr hstart
  omega

/-- Neither of two arguments is longer than both. -/
theorem splitPair_length_le {args left right : List Char} (hsplit : splitPair args = some (left, right)) :
    left.length ≤ args.length ∧ right.length ≤ args.length := by
  rw [splitPair] at hsplit
  split at hsplit
  · rename_i left' right' hparts
    cases hsplit
    have hpart : ∀ part ∈ (args.splitOn ',').map trim, part.length ≤ args.length := by
      intro part hpart
      obtain ⟨piece, hpiece, rfl⟩ := List.mem_map.mp hpart
      exact (trimMatches_length_le _ _).trans (length_le_of_mem_splitOn hpiece)
    rw [hparts] at hpart
    exact ⟨hpart left List.mem_cons_self, hpart right (List.mem_cons_of_mem _ List.mem_cons_self)⟩
  · cases hsplit

/-- Two arguments between the parentheses are shorter. -/
theorem enclosedPair_length_lt {start : String} {s left right : List Char} (hstart : start.toList ≠ [])
    (hpair : (enclosed start s).bind splitPair = some (left, right)) :
    left.length < s.length ∧ right.length < s.length := by
  obtain ⟨args, henclosed, hsplit⟩ := Option.bind_eq_some_iff.mp hpair
  have hargs := enclosed_length_lt hstart henclosed
  obtain ⟨hleft, hright⟩ := splitPair_length_le hsplit
  exact ⟨hleft.trans_lt hargs, hright.trans_lt hargs⟩

/-- The second of two arguments is not longer than both. -/
theorem splitFirst_length_le {args left right : List Char} (hsplit : splitFirst args = some (left, right)) :
    right.length ≤ args.length := by
  obtain ⟨⟨before, after⟩, honce, hparts⟩ := Option.map_eq_some_iff.mp hsplit
  cases hparts
  rw [splitOnce] at honce
  split at honce
  · cases honce
    refine (trimMatches_length_le _ _).trans ?_
    rw [List.length_tail]
    exact (Nat.sub_le _ _).trans (List.dropWhile_sublist _).length_le
  · cases honce

/-- Every text of less characters than the fuel is a query. -/
theorem parseWith_isOk (fuel : ℕ) (input : List Char) (hfuel : input.length < fuel) :
    ∃ expr, parseWith fuel input = .ok expr := by
  induction fuel generalizing input with
  | zero => exact absurd hfuel (Nat.not_lt_zero _)
  | succ fuel ih =>
    have htrim : (trim input).length ≤ input.length := trimMatches_length_le _ _
    have hinner : ∀ start : String, start.toList ≠ [] → ∀ inner,
        enclosed start (trim input) = some inner → inner.length < fuel := by
      intro start hstart inner henclosed
      have hlt := enclosed_length_lt hstart henclosed
      omega
    rw [parseWith]
    split
    · exact ⟨_, rfl⟩
    split
    · rename_i inner henclosed
      obtain ⟨expr, hexpr⟩ := ih inner (hinner _ (by decide) inner henclosed)
      rw [hexpr]
      exact ⟨_, rfl⟩
    split
    · rename_i inner henclosed
      obtain ⟨expr, hexpr⟩ := ih inner (hinner _ (by decide) inner henclosed)
      rw [hexpr]
      exact ⟨_, rfl⟩
    split
    · rename_i left right hpair
      obtain ⟨hleft, hright⟩ := enclosedPair_length_lt (by decide) hpair
      obtain ⟨l, hl⟩ := ih left (by omega)
      obtain ⟨r, hr⟩ := ih right (by omega)
      rw [hl, hr]
      exact ⟨_, rfl⟩
    split
    · rename_i left right hpair
      obtain ⟨hleft, hright⟩ := enclosedPair_length_lt (by decide) hpair
      obtain ⟨l, hl⟩ := ih left (by omega)
      obtain ⟨r, hr⟩ := ih right (by omega)
      rw [hl, hr]
      exact ⟨_, rfl⟩
    split
    · rename_i pattern inner hpair
      obtain ⟨args, henclosed, hsplit⟩ := Option.bind_eq_some_iff.mp hpair
      have hargs := hinner _ (by decide) args henclosed
      have hright := splitFirst_length_le hsplit
      obtain ⟨expr, hexpr⟩ := ih inner (by omega)
      rw [hexpr]
      exact ⟨_, rfl⟩
    · exact ⟨_, rfl⟩

/-- Every text is a query. -/
theorem parseQuery_isOk (input : String) : ∃ expr, parseQuery input = .ok expr :=
  parseWith_isOk _ _ (Nat.lt_succ_self _)

example : parseQuery " filter(\"lib\", deps(//app)) " = .ok (.filter "lib" (.deps (.target "app"))) := by
  decide

end Forge.Graph
