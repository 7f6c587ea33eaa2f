/-!
# Abstract domains

A domain has a least and a greatest element and a join.  `Domain` holds the operations alone, so
the solver can be run, and bounded, over any of them; `LawfulDomain` holds the laws of a bounded
join-semilattice.
-/
namespace ValueFlow

class Domain (L : Type) where
  bottom : L
  top : L
  join : L → L → L

namespace Domain
variable {L : Type} [Domain L] [BEq L]

/-- `a` adds nothing to `b`. -/
def le (a b : L) : Bool := join a b == b

def isBottom (a : L) : Bool := a == bottom

end Domain

/-- The laws of a join-semilattice with least element `bottom` and greatest element `top`. -/
class LawfulDomain (L : Type) [Domain L] : Prop where
  join_comm : ∀ a b : L, Domain.join a b = Domain.join b a
  join_assoc : ∀ a b c : L, Domain.join (Domain.join a b) c = Domain.join a (Domain.join b c)
  join_self : ∀ a : L, Domain.join a a = a
  bottom_join : ∀ a : L, Domain.join Domain.bottom a = a
  top_join : ∀ a : L, Domain.join Domain.top a = Domain.top

end ValueFlow
