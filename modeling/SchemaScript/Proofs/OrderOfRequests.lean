import SchemaScript.Proofs.Emission.Orderly

/-!
# The order of requests

Definitions are requested one after the other, and each request finds what the ones before it
left: expressions, known names, and nothing open.  If references form no cycle and type names
are not shared, the order makes no difference: every definition has the same expression, and
the same declarations wait, though in another order.

Both runs are compared with what does not depend on a run at all, the sites inside the
definitions that can be reached and the expressions that their schemas come to.

## Main definitions

* `Resolver.emitEach` — requests one after the other.

## Main results

* `answered_emitEach` — what the requests leave.
* `emitEach_perm` — the order of requests makes no difference.
-/

namespace SchemaScript
namespace Resolver

open Stateful

variable {ε : Type}

/-- Emits definitions one after the other, and gives their expressions. -/
def emitEach : List String → Resolving ε (List TypeExpr)
  | [] => return []
  | name :: names => do
    let t ← emitNamed name
    let ts ← emitEach names
    return t :: ts

/-! ### What requests leave -/

/-- The first of several requests has its expression, and so have the others behind it. -/
theorem exec_emitEach_cons_eq_ok {name : String} {requested : List String} {r r' : Resolver ε}
    {ts : List TypeExpr} (hexec : exec (emitEach (name :: requested)) r = (.ok ts, r')) :
    ∃ t ts' r₁, exec (emitNamed name) r = (.ok t, r₁) ∧
      exec (emitEach requested) r₁ = (.ok ts', r') ∧ ts = t :: ts' := by
  obtain ⟨t, r₁, ht, hrest⟩ := exec_bind_eq_ok hexec
  rw [exec_bind_pure] at hrest
  obtain ⟨ts', hts, rfl⟩ := eq_ok_of_mapValue hrest
  exact ⟨t, ts', r₁, ht, hts, rfl⟩

theorem grows_emitEach {requested : List String} {r r' : Resolver ε} {ts : List TypeExpr}
    (hexec : exec (emitEach requested) r = (.ok ts, r')) : Grows r r' := by
  induction requested generalizing r ts with
  | nil =>
    cases hexec
    exact Grows.refl _
  | cons name requested ih =>
    obtain ⟨t, ts, r₁, ht, hts, rfl⟩ := exec_emitEach_cons_eq_ok hexec
    have hg := grows_emitNamed name r
    rw [ht] at hg
    exact hg.trans (ih hts)

section

variable {es : List Exclusion} {ds : Definitions} {names : List String} (hds : ds.IsTidy)
  (hnames : ∀ name ∈ names, name ∈ ds.names)

include hds hnames

theorem answered_emitNamed {name : String} (hname : name ∈ names) {r r' : Resolver ε}
    (h : Orderly es ds names [] r) (ho : r.opening = .empty) {t : TypeExpr}
    (hexec : exec (emitNamed name) r = (.ok t, r')) :
    Answered es ds names [] r (.definition ds name name) t r' := by
  rw [exec_emitNamed, exec_emit, h.definitions, Option.getD_some] at hexec
  have hplace := hds.withoutStart_eq (hnames name hname)
  have hans := alwaysAnswers_emitWith hds hnames _ [] _ (ds.node name) name r r' t h
    (by
      rw [hplace]
      refine .definition (.requested hname) fun _ p hp => ?_
      rw [ho] at hp
      cases hp)
    hexec
  rwa [hplace] at hans

/-- Every request gives the expression of its definition. -/
theorem answered_emitEach {requested : List String} (hsub : ∀ name ∈ requested, name ∈ names)
    {r r' : Resolver ε} (h : Orderly es ds names [] r) (ho : r.opening = .empty)
    {ts : List TypeExpr} (hexec : exec (emitEach requested) r = (.ok ts, r')) :
    Orderly es ds names [] r' ∧ List.Forall₂
      (fun name t => Site.Answers es ds r'.queue (.definition ds name name) t) requested ts := by
  induction requested generalizing r ts with
  | nil =>
    cases hexec
    exact ⟨h, .nil⟩
  | cons name requested ih =>
    obtain ⟨t, ts, r₁, ht, hts, rfl⟩ := exec_emitEach_cons_eq_ok hexec
    have hans := answered_emitNamed hds hnames (hsub name List.mem_cons_self) h ho ht
    obtain ⟨hlast, hall⟩ := ih (fun n hn => hsub n (List.mem_cons_of_mem name hn)) hans.orderly
      (hans.opening.trans ho) hts
    -- the names in the first expression are still known behind the other requests
    exact ⟨hlast, .cons (hans.answers.mono fun _ => (grows_emitEach hts).isKnown) hall⟩

/-! ### What waits in the end -/

/-- Where the name of a site is known, its declaration waits. -/
theorem exists_declared {r : Resolver ε} (h : Orderly es ds names [] r) {path : String}
    (hp : path ∈ ds.names) {s : Site} (hs : Site.Inside (.definition ds path path) s)
    (hn : s.IsNamed) (hknown : r.queue.isKnown s.typeName = true) :
    ∃ d, r.queue.waiting.find? s.typeName = some d ∧ s.Declared (Site.Answers es ds r.queue) d := by
  obtain ⟨d, hd⟩ := h.exists_of_isKnown hknown
  obtain ⟨path', u, hu⟩ := h.waiting _ d hd
  have heq : u = s :=
    hds.eq_of_typeName (hu.reached.mem_names hnames hds.refers) hp hu.inside hu.named hs hn
      hu.typeName
  subst heq
  exact ⟨d, hd, hu.declared.resolve_left List.not_mem_nil⟩

/-- Every site inside a definition has an expression if the definition has one. -/
theorem answers_of_inside {r : Resolver ε} (h : Orderly es ds names [] r) {path : String}
    (hp : path ∈ ds.names)
    (hroot : ∃ t, Site.Answers es ds r.queue (.definition ds path path) t) {s : Site}
    (hs : Site.Inside (.definition ds path path) s) : ∃ t, Site.Answers es ds r.queue s t := by
  induction hs with
  | self => exact hroot
  | items _ hk ih =>
    obtain ⟨t, ht⟩ := ih
    obtain ⟨u, -, hu⟩ := ht.of_array hk
    exact ⟨u, hu⟩
  | values _ hk ih =>
    obtain ⟨t, ht⟩ := ih
    obtain ⟨u, -, hu⟩ := ht.of_map hk
    exact ⟨u, hu⟩
  | property hs hk hprop ih =>
    -- the expression is a name only, but the declaration that waits has the fields
    obtain ⟨t, ht⟩ := ih
    have hn : Site.IsNamed _ := ⟨.struct, hk, rfl⟩
    obtain ⟨d, -, hd⟩ := exists_declared hds hnames h hp hs hn (ht.of_isNamed hn).2
    exact hd.exists_type hk hprop

/-- Every reached definition has an expression if those requested have one. -/
theorem answers_of_reaches {r : Resolver ε} (h : Orderly es ds names [] r)
    (hall : ∀ name ∈ names, ∃ t, Site.Answers es ds r.queue (.definition ds name name) t)
    {path : String} (hpath : Definitions.Reaches es ds names path) :
    ∃ t, Site.Answers es ds r.queue (.definition ds path path) t := by
  induction hpath with
  | requested hn => exact hall _ hn
  | @followed path path' v hreached hv hk hp hx ih =>
    obtain ⟨s, hs, rfl⟩ := Site.exists_inside (.definition ds path path) hv
    obtain ⟨t, ht⟩ := answers_of_inside hds hnames h (hreached.mem_names hnames hds.refers) ih hs
    rcases ht.of_reference ⟨hk, hp⟩ with ⟨hstop, -⟩ | ⟨-, ht⟩
    · exact absurd (hstop.symm.trans hx) Bool.true_eq_false.mp
    · exact ⟨t, ht⟩

/-- What waits in one orderly state waits in another, if all requests have expressions
there. -/
theorem find?_of_orderly {r r' : Resolver ε} (h : Orderly es ds names [] r)
    (h' : Orderly es ds names [] r')
    (hall : ∀ name ∈ names, ∃ t, Site.Answers es ds r'.queue (.definition ds name name) t)
    {name : String} {d : Declaration ε} (hd : r.queue.waiting.find? name = some d) :
    r'.queue.waiting.find? name = some d := by
  obtain ⟨path, s, hs⟩ := h.waiting name d hd
  have hp := hs.reached.mem_names hnames hds.refers
  obtain ⟨t, ht⟩ := answers_of_inside hds hnames h' hp
    (answers_of_reaches hds hnames h' hall hs.reached) hs.inside
  obtain ⟨d', hd', hdecl'⟩ := exists_declared hds hnames h' hp hs.inside hs.named
    (ht.of_isNamed hs.named).2
  have hdecl := hs.declared.resolve_left List.not_mem_nil
  rw [hdecl.unique hdecl' fun _ _ _ hu hu' => hu.unique hu', ← hs.typeName]
  exact hd'

end

/-! ### Two orders -/

/-- What a list is related to item by item is given by a function, if one gives all that can
be related. -/
theorem eq_map_of_forall₂ {α β : Type} {R : α → β → Prop} {f : α → β}
    (hR : ∀ a b, R a b → b = f a) {as : List α} {bs : List β} (h : List.Forall₂ R as bs) :
    bs = as.map f ∧ ∀ a ∈ as, ∃ b, R a b := by
  induction h with
  | nil => exact ⟨rfl, fun _ ha => absurd ha List.not_mem_nil⟩
  | @cons a b as bs hab _ ih =>
    rw [List.map_cons, ← ih.1, ← hR a b hab]
    exact ⟨rfl, List.forall_mem_cons.mpr ⟨⟨b, hab⟩, ih.2⟩⟩

/-- **The order of requests makes no difference.**  If references form no cycle and type names
are not shared, then the same definitions requested in two orders, all of them with success,
have the same expressions, and the same declarations wait. -/
theorem emitEach_perm {es : List Exclusion} {ds : Definitions} (hds : ds.IsTidy)
    {names names' : List String} (hnames : ∀ name ∈ names, name ∈ ds.names)
    (hsame : ∀ name, name ∈ names ↔ name ∈ names') {r r' : Resolver ε} {ts ts' : List TypeExpr}
    (h : exec (emitEach names) (fresh es ds) = (.ok ts, r))
    (h' : exec (emitEach names') (fresh es ds) = (.ok ts', r')) :
    (∃ type : String → TypeExpr, ts = names.map type ∧ ts' = names'.map type) ∧
      r.queue.declarations.Perm r'.queue.declarations := by
  obtain ⟨hr, hts⟩ := answered_emitEach hds hnames (fun _ hn => hn) (orderly_fresh es ds names)
    rfl h
  obtain ⟨hr', hts'⟩ := answered_emitEach hds hnames (fun name hn => (hsame name).mpr hn)
    (orderly_fresh es ds names) rfl h'
  obtain ⟨type, htype⟩ := Site.Answers.exists_type ε es ds
  obtain ⟨heq, hall⟩ := eq_map_of_forall₂
    (f := fun name => type (.definition ds name name)) (fun _ _ ht => htype _ _ _ ht) hts
  obtain ⟨heq', hall'⟩ := eq_map_of_forall₂
    (f := fun name => type (.definition ds name name)) (fun _ _ ht => htype _ _ _ ht) hts'
  refine ⟨⟨_, heq, heq'⟩, ?_⟩
  have hperm := Table.perm_of_find? hr.nodup hr'.nodup fun name d =>
    ⟨find?_of_orderly hds hnames hr hr' fun n hn => hall' n ((hsame n).mp hn),
      find?_of_orderly hds hnames hr' hr hall⟩
  exact hperm.map _

/-- An array of interfaces, which have its type name, and an interface with an enum. -/
def library : Definitions :=
  Definitions.empty.defineAll
    [("a.Shelf", .obj [("type", .str "array"),
        ("items", .obj [("properties", .obj [
          ("book", .obj [("$ref", .str "#/definitions/b.Book")])])])]),
      ("b.Book", .obj [("properties", .obj [
        ("genre", .obj [("type", .str "string"), ("enum", .arr [.str "prose", .str "verse"])])])])]

theorem mem_names_library {path : String} (h : path ∈ library.names) :
    path = "a.Shelf" ∨ path = "b.Book" := by
  simpa using (show path ∈ ["a.Shelf", "b.Book"] from h)

/-- The interface in the array. -/
def shelfItem : Site := (Site.definition library "a.Shelf" "a.Shelf").items

/-- The reference in that interface. -/
def shelfBook : Site := shelfItem.property ("book", .obj [("$ref", .str "#/definitions/b.Book")])

/-- The enum in the other interface. -/
def bookGenre : Site :=
  (Site.definition library "b.Book" "b.Book").property
    ("genre", .obj [("type", .str "string"), ("enum", .arr [.str "prose", .str "verse"])])

theorem inside_shelf {s : Site}
    (h : Site.Inside (.definition library "a.Shelf" "a.Shelf") s) :
    s ∈ [.definition library "a.Shelf" "a.Shelf", shelfItem, shelfBook] := by
  refine h.mem_of_closed List.mem_cons_self ?_ ?_ ?_ <;>
    simp only [List.forall_mem_cons, List.not_mem_nil, false_imp_iff, implies_true, and_true]
  · exact ⟨fun _ => by simp [shelfItem], fun hk => (nomatch hk), fun hk => nomatch hk⟩
  · exact ⟨fun hk => (nomatch hk), fun hk => (nomatch hk), fun hk => nomatch hk⟩
  · refine ⟨fun hk => (nomatch hk), fun _ p hp => ?_, fun hk => nomatch hk⟩
    rw [List.mem_singleton.mp hp]
    simp [shelfBook]

theorem inside_book {s : Site} (h : Site.Inside (.definition library "b.Book" "b.Book") s) :
    s ∈ [.definition library "b.Book" "b.Book", bookGenre] := by
  refine h.mem_of_closed List.mem_cons_self ?_ ?_ ?_ <;>
    simp only [List.forall_mem_cons, List.not_mem_nil, false_imp_iff, implies_true, and_true]
  · exact ⟨fun hk => (nomatch hk), fun hk => nomatch hk⟩
  · exact ⟨fun hk => (nomatch hk), fun hk => nomatch hk⟩
  · refine ⟨fun _ p hp => ?_, fun hk => nomatch hk⟩
    rw [List.mem_singleton.mp hp]
    simp [bookGenre]

theorem hasInline_library {path : String} {s : Site} (h : library.HasInline path s) :
    path = "a.Shelf" ∧ s = shelfItem ∨ path = "b.Book" ∧ s = bookGenre := by
  rcases mem_names_library h.defined with rfl | rfl
  · have hs := inside_shelf h.inside
    simp only [List.mem_cons, List.not_mem_nil, or_false] at hs
    rcases hs with rfl | rfl | rfl
    · cases h.inline
    · exact Or.inl ⟨rfl, rfl⟩
    · obtain ⟨kind, hk, hn⟩ := h.named
      cases hk
      cases hn
  · have hs := inside_book h.inside
    simp only [List.mem_cons, List.not_mem_nil, or_false] at hs
    rcases hs with rfl | rfl
    · cases h.inline
    · exact Or.inr ⟨rfl, rfl⟩

/-- Only the array refers to anything. -/
theorem refers_library {path path' : String} (h : library.Refers path path') :
    path = "a.Shelf" ∧ path' = "b.Book" := by
  obtain ⟨v, hv, hk, hp⟩ := h
  by_cases hm : path ∈ library.names
  · obtain ⟨s, hs, rfl⟩ := Site.exists_inside (.definition library path path) hv
    rcases mem_names_library hm with rfl | rfl
    · have hs := inside_shelf hs
      simp only [List.mem_cons, List.not_mem_nil, or_false] at hs
      rcases hs with rfl | rfl | rfl
      · cases hk
      · cases hk
      · exact ⟨rfl, Option.some.inj (hp.symm.trans (Definitions.path?_refTo "b.Book"))⟩
    · have hs := inside_book hs
      simp only [List.mem_cons, List.not_mem_nil, or_false] at hs
      rcases hs with rfl | rfl <;> cases hk
  · -- where nothing is defined, nothing refers
    have hnull : library.get path = .null := by
      rw [Definitions.get, Definitions.node, Table.find?_eq_none_iff.mpr hm]
      rfl
    rw [hnull] at hv
    rcases hv.first with rfl | ⟨hk', -⟩ | ⟨hk', -⟩ | ⟨hk', -⟩
    · cases hk
    · cases hk'
    · cases hk'
    · cases hk'

theorem isTidy_library : library.IsTidy where
  start := by
    intro path hp
    rcases mem_names_library hp with rfl | rfl <;> decide +kernel
  refers := by
    intro path _ path' h
    rw [(refers_library h).2]
    decide +kernel
  acyclic := by
    intro path h
    obtain ⟨_, hfirst, -⟩ := Relation.TransGen.head'_iff.mp h
    obtain ⟨_, -, hlast⟩ := Relation.TransGen.tail'_iff.mp h
    have heq := (refers_library hfirst).1.symm.trans (refers_library hlast).2
    revert heq
    decide
  distinct := by
    intro path hp path' hp' heq
    rcases mem_names_library hp with rfl | rfl <;> rcases mem_names_library hp' with rfl | rfl
    · rfl
    · exact absurd heq (by decide +kernel)
    · exact absurd heq (by decide +kernel)
    · rfl
  inline := by
    intro path path' s s' h h' heq
    rcases hasInline_library h with ⟨-, rfl⟩ | ⟨-, rfl⟩ <;>
      rcases hasInline_library h' with ⟨-, rfl⟩ | ⟨-, rfl⟩
    · rfl
    · exact absurd heq (by decide +kernel)
    · exact absurd heq (by decide +kernel)
    · rfl
  inlineDefinition := by
    intro path s h path' hp' heq
    rcases hasInline_library h with ⟨rfl, rfl⟩ | ⟨rfl, rfl⟩ <;>
      rcases mem_names_library hp' with rfl | rfl
    · exact ⟨rfl, Or.inl rfl⟩
    · exact absurd heq (by decide +kernel)
    · exact absurd heq (by decide +kernel)
    · exact absurd heq (by decide +kernel)
  properties := by
    intro path hp s hs hk p hprop
    rcases mem_names_library hp with rfl | rfl
    · have hs := inside_shelf hs
      simp only [List.mem_cons, List.not_mem_nil, or_false] at hs
      rcases hs with rfl | rfl | rfl
      · cases hk
      · rw [List.mem_singleton.mp hprop]
        rfl
      · cases hk
    · have hs := inside_book hs
      simp only [List.mem_cons, List.not_mem_nil, or_false] at hs
      rcases hs with rfl | rfl
      · rw [List.mem_singleton.mp hprop]
        rfl
      · cases hk

/-- In the one order the book is met as a reference first, in the other one as a request. -/
theorem emitEach_perm_library :
    let o : Except Failure (List TypeExpr) × Resolver Empty :=
      exec (emitEach ["a.Shelf", "b.Book"]) (fresh [] library)
    let o' : Except Failure (List TypeExpr) × Resolver Empty :=
      exec (emitEach ["b.Book", "a.Shelf"]) (fresh [] library)
    library.IsTidy ∧ o.1 = .ok [.array (.named "Shelf"), .named "Book"] ∧
      o'.1 = .ok [.named "Book", .array (.named "Shelf")] ∧
        o.2.queue.names = ["Shelf", "Book", "BBookGenre"] ∧
          o'.2.queue.names = ["Book", "BBookGenre", "Shelf"] ∧
            o.2.queue.declarations.Perm o'.2.queue.declarations := by
  intro o o'
  have ho : o.1 = .ok [.array (.named "Shelf"), .named "Book"] :=
    eq_ok_of_toOption (by decide +kernel)
  have ho' : o'.1 = .ok [.named "Book", .array (.named "Shelf")] :=
    eq_ok_of_toOption (by decide +kernel)
  have hnames : ∀ name ∈ ["a.Shelf", "b.Book"], name ∈ library.names := fun name hn => hn
  have hsame : ∀ name, name ∈ ["a.Shelf", "b.Book"] ↔ name ∈ ["b.Book", "a.Shelf"] :=
    fun name => by simp [or_comm]
  exact ⟨isTidy_library, ho, ho', by decide +kernel, by decide +kernel,
    (emitEach_perm isTidy_library hnames hsame (Prod.ext ho rfl) (Prod.ext ho' rfl)).2⟩

end Resolver
end SchemaScript
