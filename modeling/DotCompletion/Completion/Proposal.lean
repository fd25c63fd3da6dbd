import DotCompletion.Completion.Candidate
import DotCompletion.Token.Word

/-!
# Proposals and those who make them

A provider looks at a site and its candidates and makes proposals, or fails; what
a failing provider made is dropped. A manager asks its providers one after the
other, and all of them about the same candidates.
-/

namespace DotCompletion

/-- One completion offered to the user. -/
structure Proposal where
  label : String
  detail : String
  documentation : String
  /-- The replacement, with placeholders for an editor. -/
  snippet : Bytes
  /-- What the snippet replaces. -/
  replace : Span
  /-- The name of the provider. -/
  provider : String
deriving DecidableEq, Repr

/-- How a provider presents itself. -/
structure Metadata where
  name : String
  description : String
  /-- What an expansion looks like. -/
  sample : String
deriving DecidableEq, Repr

namespace Metadata

/-- The name can be typed behind a dot. -/
def isValid (m : Metadata) : Bool := Word.isWord m.name

end Metadata

/-- A source of proposals. -/
structure Provider where
  /-- A provider that does not present itself is never asked. -/
  metadata : Option Metadata
  /-- The proposals for a site and its candidates; `none` if the provider
  fails. -/
  create : Site → List Candidate → Option (List Proposal)

/-- A provider that is asked. -/
structure Registration where
  metadata : Metadata
  create : Site → List Candidate → Option (List Proposal)

namespace Registration

/-- The registration of a provider that presents itself properly. -/
def ofProvider? (p : Provider) : Option Registration :=
  (p.metadata.filter Metadata.isValid).map fun m => ⟨m, p.create⟩

/-- A proposal as it is handed on. Unless it says what it replaces, it replaces
target and reference; it always carries the name of its provider. -/
def finish (r : Registration) (s : Site) (p : Proposal) : Proposal :=
  { p with
    replace := if p.replace = .ofOffsets 0 0 then s.replaceSpan s.target else p.replace
    provider := r.metadata.name }

/-- The proposals of one provider. -/
def proposals (r : Registration) (s : Site) (candidates : List Candidate) : List Proposal :=
  ((r.create s candidates).getD []).map (r.finish s)

end Registration

/-- The providers that are asked, in order. -/
structure Manager where
  registrations : List Registration

namespace Manager

/-- The manager of those providers that present themselves properly. -/
def ofProviders (providers : List Provider) : Manager :=
  ⟨providers.filterMap Registration.ofProvider?⟩

/-- The proposals for a site. -/
def proposalsAt (m : Manager) (s : Site) : List Proposal :=
  let candidates := s.candidates
  m.registrations.flatMap fun r => r.proposals s candidates

/-- The proposals for the leaf at the cursor; none if no template applies. -/
def available (m : Manager) (t : Tree) (cursor : Option Nat) (force : Bool) : List Proposal :=
  match t.resolve cursor with
  | .ok resolution => m.proposalsAt ⟨t, resolution, force⟩
  | .error _ => []

end Manager

end DotCompletion
