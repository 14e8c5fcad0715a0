import PointMutation.Syntax.Kind
import PointMutation.Text.Basic

/-!
# Syntax trees

A node has a kind, the stretch of text it covers, counted in characters, and the named nodes below
it in the order of the text. A node may have a role in the node above it. Comments and joined
lines are nodes like any other and hang below the innermost node that covers them.

A tree is put together from fragments. A fragment remembers which nodes stood in front of its
first token, since those belong to whatever surrounds the node that is made of the fragment.
-/

namespace PointMutation

/-- What a node is to the assignment or the parameter above it. -/
inductive Role
  | left | right | annotated | name | value
  deriving DecidableEq, Repr

/-- A node with the stretch of text from `start` up to `stop` and the nodes below it. -/
inductive Tree
  | node (kind : Kind) (role : Option Role) (start stop : Nat) (children : List Tree)
  deriving Repr

namespace Tree

def kind : Tree → Kind
  | node k _ _ _ _ => k

def role : Tree → Option Role
  | node _ r _ _ _ => r

/-- Place of the first character. -/
def start : Tree → Nat
  | node _ _ a _ _ => a

/-- Place after the last character. -/
def stop : Tree → Nat
  | node _ _ _ b _ => b

/-- All nodes right below, comments among them. -/
def children : Tree → List Tree
  | node _ _ _ _ cs => cs

/-- The nodes right below, comments left out. -/
def parts (t : Tree) : List Tree := t.children.filter fun c => c.kind != .comment

/-- The part with a given role. -/
def part? (t : Tree) (r : Role) : Option Tree := t.parts.find? fun c => c.role == some r

/-- The same node as one of another kind. -/
def withKind (k : Kind) : Tree → Tree
  | node _ r a b cs => node k r a b cs

/-- The same node in another role. -/
def withRole (r : Role) : Tree → Tree
  | node k _ a b cs => node k (some r) a b cs

theorem sizeOf_lt_of_mem_children {t c : Tree} (h : c ∈ t.children) : sizeOf c < sizeOf t := by
  obtain ⟨k, r, a, b, cs⟩ := t
  have := List.sizeOf_lt_of_mem h
  simp only [children] at this
  simp only [node.sizeOf_spec]
  omega

theorem mem_children_of_mem_parts {t c : Tree} (h : c ∈ t.parts) : c ∈ t.children :=
  (List.mem_filter.1 h).1

theorem mem_parts_of_part? {t c : Tree} {r : Role} (h : t.part? r = some c) : c ∈ t.parts :=
  List.mem_of_find?_eq_some h

/-- Nodes that lie one after the other, all of them between `start` and `stop`. -/
def Ordered (start stop : Nat) : List Tree → Prop
  | [] => start ≤ stop
  | t :: ts => start ≤ t.start ∧ t.start ≤ t.stop ∧ Ordered t.stop stop ts

instance (start stop : Nat) (ts : List Tree) : Decidable (Ordered start stop ts) :=
  match ts with
  | [] => inferInstanceAs (Decidable (start ≤ stop))
  | t :: ts =>
    have := instDecidableOrdered t.stop stop ts
    inferInstanceAs (Decidable (start ≤ t.start ∧ t.start ≤ t.stop ∧ Ordered t.stop stop ts))

end Tree

/-- A run of tokens from `start` up to `stop`, with the nodes found among them. The nodes of
`lead` stood in front of the first token. -/
structure Fragment where
  lead : List Tree
  items : List Tree
  start : Nat
  stop : Nat

namespace Fragment

instance : Append Fragment :=
  ⟨fun f g => ⟨f.lead, f.items ++ (g.lead ++ g.items), f.start, g.stop⟩⟩

/-- The fragment with some nodes in front of its first token. -/
def behind (f : Fragment) (extras : List Tree) : Fragment := { f with lead := extras ++ f.lead }

/-- One node that covers the fragment. -/
def node (f : Fragment) (k : Kind) : Fragment :=
  { f with items := [.node k none f.start f.stop f.items] }

/-- The fragment with its nodes in a role. -/
def withRole (f : Fragment) (r : Role) : Fragment := { f with items := f.items.map (.withRole r) }

/-- The fragment with its nodes as ones of another kind. -/
def withKind (f : Fragment) (k : Kind) : Fragment := { f with items := f.items.map (.withKind k) }

theorem append_def (f g : Fragment) :
    f ++ g = ⟨f.lead, f.items ++ (g.lead ++ g.items), f.start, g.stop⟩ := rfl

end Fragment

end PointMutation
