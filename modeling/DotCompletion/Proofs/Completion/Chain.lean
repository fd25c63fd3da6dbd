import DotCompletion.Proofs.Completion.Shapes
import DotCompletion.Proofs.Completion.Statements
import DotCompletion.Proofs.Grammar.Beginnings
import DotCompletion.Proofs.Grammar.Edges
import DotCompletion.Proofs.Grammar.Joints
import DotCompletion.Proofs.Token.Between
import DotCompletion.Proofs.Tree.Positions

/-!
# The chain of candidates

Every candidate lies around the ones in front of it, and their texts end in one place. What
follows there up to the end of the reference is the same for all of them, the joint: white
space and comments, the dot, and whatever stands from the dot to the last token of the
reference (`Site.Chain`). An expansion of a candidate replaces its text and the joint
(`Site.chain_of_resolve`).
-/

namespace DotCompletion

open Node (Numbered)

/-! ## Numbers and places -/

namespace Node.Numbered

variable {root n m : Node} {id j : Nat} {above above' : List (Nat × Node)}

end Node.Numbered

/-- The last token of a node. -/
def Tree.lastToken? (t : Tree) (id : Nat) : Option Token :=
  (t.node? id).bind fun n => n.yield.getLast?

namespace Site

variable {s : Site} {source : Bytes} {entry : Entry}

/-- Behind the texts of the candidates the source has the tokens `gap`, and then the dot of the
template: the token behind the target, or the last byte of a number. -/
inductive FindsDot (s : Site) : List Token → Prop
  | behind {sign : Nat} {dot : Token} {front gap back : List Token} (hroute : s.recovered = false)
      (hsign : s.tree.next? s.target = some sign) (htoken : s.tree.token? sign = some dot)
      (hdot : dot.kind = .dot)
      (hread : Token.read .origin s.tree.source = front ++ gap ++ dot :: back)
      (hplace : s.contentEnd.offset = (front.flatMap Token.literal).length) : FindsDot s gap
  | swallowed {number : Token} (hroute : s.recovered = true)
      (htoken : s.tree.token? s.target = some number)
      (hdot : Bytes.endsWith '.' number.literal = true)
      (hplace : s.contentEnd.offset + 1 = number.hi) : FindsDot s []

/-- What follows the text of each candidate: perhaps white space and comments, then the dot, and
at the end the last token of the reference. -/
structure Joint (s : Site) (joint : Bytes) : Prop where
  dot : ∃ gap more, joint = gap.flatMap Token.literal ++ '.'.toUInt8 :: more ∧
    (∀ t ∈ gap, t.kind.isTrivia = true) ∧ s.FindsDot gap
  last : ∃ last, s.tree.lastToken? s.reference = some last ∧ last.literal <:+ joint

/-- The joint stands between two offsets of the source, and the target begins in front of it. -/
structure Joined (s : Site) (source : Bytes) (start stop : Nat) : Prop where
  contentEnd : s.contentEnd.offset = start
  reference : (s.spanOf s.reference).stop.offset = stop
  le : start ≤ stop
  length : stop ≤ source.length
  target : (s.spanOf s.target).start.offset < start
  joint : s.Joint (source.slice start stop)

end Site

/-! ## Reference and target -/

namespace Node

variable {source : Bytes} {m q : Node} {back : List Node}

end Node

namespace Site

variable {s : Site} {source : Bytes} {entry : Entry} {cursor : Option Nat}

/-- What lies around an expression begins in front of it, or where it begins. -/
theorem start_le (htree : s.tree = .parse entry source) {a b : Nat} {n m : Node}
    {above : List (Nat × Node)} (hn : Numbered (entry.parse source) a n above)
    (hkind : n.kind.isExpression = true) (hm : (b, m) ∈ above) :
    (s.spanOf b).start.offset ≤ (s.spanOf a).start.offset := by
  obtain ⟨v, hv, hlo⟩ := (hn.every (entry.parse_begins source)).own hkind
  obtain ⟨inner, outer, hsplit⟩ := List.append_of_mem hm
  have hmnode := hn.outer hsplit
  have hcovers := (hmnode.every (entry.parse_laid source)).own.covers v
    (hn.yield_subset (List.mem_cons_of_mem _ hm) hv)
  rw [spanOf_eq htree hn, spanOf_eq htree hmnode]
  calc m.lo ≤ v.lo := hcovers.1
    _ = n.lo := hlo

end Site

end DotCompletion
