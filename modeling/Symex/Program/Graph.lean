/-!
# The program as a graph

Locations are numbered from zero. A graph has a size and a list of links, each once, in the order in which they
were first given; successors and predecessors are read off that list, so both keep its order.
-/

namespace Symex

/-- A step between two locations. -/
structure Edge where
  source : Nat
  target : Nat
  deriving DecidableEq, Ord, Inhabited

def Edge.render (e : Edge) : String := "L" ++ toString e.source ++ "->L" ++ toString e.target

/-- Control-flow graph over the locations below `size`. -/
structure Graph where
  size : Nat := 0
  links : List Edge := []

namespace Graph

/-- Adds a link unless it is there, and makes room for both ends. -/
def addEdge (g : Graph) (e : Edge) : Graph :=
  { size := max g.size (max e.source e.target + 1)
    links := if e ∈ g.links then g.links else g.links ++ [e] }

def ofEdges (size : Nat) (es : List Edge) : Graph := es.foldl addEdge { size }

def successors (g : Graph) (l : Nat) : List Nat := (g.links.filter (·.source == l)).map (·.target)

def predecessors (g : Graph) (l : Nat) : List Nat := (g.links.filter (·.target == l)).map (·.source)

def isExit (g : Graph) (l : Nat) : Bool := (g.successors l).isEmpty

/-- The locations in order. They are natural numbers, so there is no largest graph; `locations_eq_range_toUInt32` says
how far numbers of 32 bits go. -/
def locations (g : Graph) : List Nat := List.range g.size

/-- The links ordered by their start, then by age. -/
def edges (g : Graph) : List Edge := g.locations.flatMap fun l => (g.successors l).map (Edge.mk l)

/-- The largest number of links that leave one location. -/
def maxDegree (g : Graph) : Nat := (g.locations.map fun l => (g.successors l).length).foldl max 0

def render (g : Graph) : String :=
  "graph with " ++ toString g.size ++ " locations:\n" ++
    String.join (g.edges.map fun e => "  " ++ e.render ++ "\n")

/-- The straight line of `n` links over the locations from `0` to `n`. -/
def line (n : Nat) : Graph := ofEdges (n + 1) ((List.range n).map fun i => ⟨i, i + 1⟩)

/-! ### Locations -/

/-- With fewer than `2 ^ 32` locations, counting them with 32 bits leaves none out. -/
theorem locations_eq_range_toUInt32 {g : Graph} (h : g.size < UInt32.size) :
    g.locations = List.range g.size.toUInt32.toNat := by
  rw [locations, Nat.toUInt32, UInt32.toNat_ofNat_of_lt' h]

theorem le_foldl_max (ns : List Nat) (k : Nat) : k ≤ ns.foldl max k ∧ ∀ n ∈ ns, n ≤ ns.foldl max k := by
  induction ns generalizing k with
  | nil => simp
  | cons m ns ih =>
    obtain ⟨hle, hall⟩ := ih (max k m)
    simp only [List.foldl_cons, List.mem_cons, forall_eq_or_imp]
    exact ⟨by omega, by omega, hall⟩

/-! ### Links -/

theorem mem_links_addEdge {g : Graph} {e x : Edge} : x ∈ (g.addEdge e).links ↔ x = e ∨ x ∈ g.links := by
  by_cases h : e ∈ g.links
  · simp only [addEdge, if_pos h]
    constructor
    · exact Or.inr
    · rintro (rfl | hx)
      · exact h
      · exact hx
  · simp [addEdge, h, or_comm]

theorem mem_successors {g : Graph} {l m : Nat} : m ∈ g.successors l ↔ ⟨l, m⟩ ∈ g.links := by
  simp only [successors, List.mem_map, List.mem_filter, beq_iff_eq]
  constructor
  · rintro ⟨⟨a, b⟩, ⟨h, rfl⟩, rfl⟩
    exact h
  · intro h
    exact ⟨⟨l, m⟩, ⟨h, rfl⟩, rfl⟩

theorem mem_predecessors {g : Graph} {l m : Nat} : m ∈ g.predecessors l ↔ ⟨m, l⟩ ∈ g.links := by
  simp only [predecessors, List.mem_map, List.mem_filter, beq_iff_eq]
  constructor
  · rintro ⟨⟨a, b⟩, ⟨h, rfl⟩, rfl⟩
    exact h
  · intro h
    exact ⟨⟨m, l⟩, ⟨h, rfl⟩, rfl⟩

end Graph

end Symex
