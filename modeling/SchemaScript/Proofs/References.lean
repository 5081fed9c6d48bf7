import SchemaScript.Proofs.Schemas

/-!
# Where references lead

References stand in the schemas of definitions and lead to other definitions, unless an
exclusion stops them.

## Main definitions

* `Exclusion.stops` — a reference to the path comes to `any`.
* `Definitions.Refers` — a reference in the one definition leads to the other.
* `Definitions.Reaches` — the paths that can be reached.
-/

namespace SchemaScript

/-- An exclusion hits the text of a reference to the path, or the path. -/
def Exclusion.stops (es : List Exclusion) (path : String) : Bool :=
  es.any (·.hits (Definitions.refTo path)) || es.any (·.hits path)

namespace Resolver

variable {ε : Type}

theorem isExcluded_eq_any (r : Resolver ε) (name : String) :
    r.isExcluded name = r.exclusions.any (·.hits name) := by
  rw [isExcluded, exclusionOf, Bool.eq_iff_iff, List.find?_isSome, List.any_eq_true]

/-- What a reference is tested for. -/
theorem isExcluded_eq_stops (r : Resolver ε) (path : String) :
    (r.isExcluded (Definitions.refTo path) || r.isExcluded path) =
      Exclusion.stops r.exclusions path := by
  rw [isExcluded_eq_any, isExcluded_eq_any, Exclusion.stops]

end Resolver

namespace Definitions

/-- A reference in the schema under the one name leads to the other. -/
def Refers (ds : Definitions) (path path' : String) : Prop :=
  ∃ v, Schema.Inside (ds.get path) v ∧ Schema.classify v = .ok .ref ∧
    path? (v.get "$ref") = some path'

/-- The paths that can be reached from requested names by references that are not stopped. -/
inductive Reaches (es : List Exclusion) (ds : Definitions) (names : List String) : String → Prop
  | requested {name : String} (h : name ∈ names) : Reaches es ds names name
  | followed {path path' : String} {v : Json} (h : Reaches es ds names path)
    (hv : Schema.Inside (ds.get path) v) (hk : Schema.classify v = .ok .ref)
    (hp : path? (v.get "$ref") = some path') (hx : Exclusion.stops es path' = false) :
    Reaches es ds names path'

/-- If references lead to definitions only, then definitions are reached only. -/
theorem Reaches.mem_names {es : List Exclusion} {ds : Definitions} {names : List String}
    (hnames : ∀ name ∈ names, name ∈ ds.names)
    (hrefers : ∀ path ∈ ds.names, ∀ path', ds.Refers path path' → path' ∈ ds.names)
    {path : String} (h : Reaches es ds names path) : path ∈ ds.names := by
  induction h with
  | requested hn => exact hnames _ hn
  | followed _ hv hk hp _ ih => exact hrefers _ ih _ ⟨_, hv, hk, hp⟩

end Definitions
end SchemaScript
