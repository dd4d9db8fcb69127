import PropertyRenaming.Proofs.NewItems

namespace PropertyRenaming

open List (Forall₂)

section Counting

variable {α β : Type}

theorem forall₂_imp_of_mem {R S : α → β → Prop} {l : List α} {l' : List β} (h : Forall₂ R l l')
    (hRS : ∀ x y, y ∈ l' → R x y → S x y) : Forall₂ S l l' := by
  induction h with
  | nil => exact .nil
  | cons hxy _ ih =>
    exact .cons (hRS _ _ List.mem_cons_self hxy)
      (ih fun x y hy => hRS x y (List.mem_cons_of_mem _ hy))

theorem countP_zip_map {δ : Type} {R : α → β → Prop} {xs : List α} {ys : List β}
    (h : Forall₂ R xs ys) {f : β → δ} {p : α × δ → Bool} {q : β → Bool}
    (hpq : ∀ x y, R x y → p (x, f y) = q y) : (xs.zip (ys.map f)).countP p = ys.countP q := by
  induction h with
  | nil => rfl
  | cons hxy _ ih =>
    rw [List.map_cons, List.zip_cons_cons, List.countP_cons, List.countP_cons, ih, hpq _ _ hxy]

theorem countP_of_forall₂ {R : α → β → Prop} {xs : List α} {ys : List β} (h : Forall₂ R xs ys)
    {p : α → Bool} {q : β → Bool} (hpq : ∀ x y, R x y → p x = q y) : xs.countP p = ys.countP q := by
  induction h with
  | nil => rfl
  | cons hxy _ ih => rw [List.countP_cons, List.countP_cons, ih, hpq _ _ hxy]

theorem countP_eq_sum (l : List α) (p : α → Bool) :
    l.countP p = (l.map fun a => (p a).toNat).sum := by
  induction l with
  | nil => rfl
  | cons a l ih =>
    have hone : (if p a = true then 1 else 0) = (p a).toNat := by cases p a <;> rfl
    rw [List.countP_cons, List.map_cons, List.sum_cons, ih, hone, Nat.add_comm]

end Counting

/-- What a node has become before the fetches are visited: it has its name, or it is an item with a
new one. -/
structure Node.Relabelled (old : List String) (n m : Node) : Prop where
  kind : m.kind = n.kind
  oldNamed : n.OldNamed old
  name : m.propertyName? = n.propertyName? ∨
    n.kind = .propertyItem ∧ ∃ new, m.propertyName? = some new ∧ new ∉ old

theorem Value.Framed.str?_eq {T : Touch} {p : Prop} {spot : Spot} {named : Bool} {v u : Value}
    (h : Value.Framed T p spot named v u) (hp : ¬ p) : u.str? = v.str? := by
  cases h with
  | touched hp' => exact absurd hp' hp
  | same _ => rfl
  | node _ => rfl
  | nodes _ => rfl

theorem Declarations.relabelled_of_framed {ignore : List Atom} {old : List String} {spot : Spot}
    {named : Bool} {n m : Node} (hold : n.OldNamed old)
    (h : Node.Framed (Touched ignore (NewName (old.map .text))) spot named n m) :
    n.Relabelled old m where
  kind := h.kind_eq
  oldNamed := hold
  name := by
    by_cases ht : Touched ignore (NewName (old.map .text)) spot named n m .name
    · obtain ⟨hitem, -, hname, hnew⟩ := ht
      obtain ⟨hk, -⟩ := Site.declared?_eq_some_iff.mp hitem
      obtain ⟨new, rfl, -⟩ := hnew.1
      refine Or.inr ⟨hk, new, ?_, hnew.not_mem⟩
      exact Node.propertyName?_eq_some_iff.mpr ⟨Or.inl (h.kind_eq.trans hk), hname⟩
    · left
      simp only [Node.propertyName?, h.kind_eq, (h.field .name).str?_eq ht]

/-- The nodes of a unit, each beside what it has become. -/
def sideBySide (unit nodes : List Node) : List (Node × Node) := (preorder unit).zip (preorder nodes)

/-- Whether a node has got another name. A name that is not written out is whatever expression it
is, even if something inside it is renamed. -/
def isRenamed (c : Node × Node) : Bool := c.1.propertyName? != c.2.propertyName?

def Node.isDynamicFetch (n : Node) : Bool := n.kind.isFetch && n.propertyName?.isNone

def Node.isLiteralFetch (n : Node) : Bool := n.kind.isFetch && n.propertyName?.isSome

def ClassTable.isLocalAt (table : ClassTable) (c : Node × Node) : Bool :=
  table.isLocal c.2 = .ok true

def ClassTable.keyAt? (table : ClassTable) (perClass : Bool) (c : Node × Node) : Option Key :=
  match c.1.propertyName?, c.2.place.enclosing with
  | some name, some id =>
    if c.1.kind.isFetch && table.isLocalAt c then
      some (propertyKey perClass table.scope id (.text name))
    else none
  | _, _ => none

/-- The counters of a report say what has become of the nodes of the unit. -/
structure CountsExactly (settings : Settings) (table : ClassTable) (unit : List Node)
    (report : Report) : Prop where
  kinds : (preorder report.nodes).map Node.kind = (preorder unit).map Node.kind
  declarations : report.declarations =
    (sideBySide unit report.nodes).countP fun c => c.1.kind == .propertyItem && isRenamed c
  fetches : report.fetches =
    (sideBySide unit report.nodes).countP fun c => c.1.kind.isFetch && isRenamed c
  skipped : report.skipped = (preorder unit).countP Node.isDynamicFetch +
    (sideBySide unit report.nodes).countP fun c => c.1.isLiteralFetch && !table.isLocalAt c
  total : report.fetches + report.skipped +
      (sideBySide unit report.nodes).countP (fun c =>
        (table.keyAt? settings.scopedKeys c).any fun key =>
          (RenameMap.find? key report.mapping).isNone) =
    (preorder unit).countP fun n => n.kind.isFetch

namespace Renamer

def isUnlisted (m : RenameMap) (t : ClassTable) (n : Node) : Bool :=
  n.kind.isFetch && (n.localFetch? t).isSome && (fetchRewriting m t ⟨{}, n⟩).isNone

/-- A fetch is skipped if its name is not written out, or if it is and the fetch is not local. -/
theorem isMiss_toNat (t : ClassTable) (n : Node) : (isMiss t n).toNat =
    n.isDynamicFetch.toNat + (n.isLiteralFetch && !t.finds n).toNat := by
  unfold isMiss Node.isDynamicFetch Node.isLiteralFetch Node.propertyName?
  cases hk : n.kind.isFetch with
  | false => rfl
  | true =>
    cases hname : (n.get .name).str? with
    | none => simp [Node.localFetch?, hname]
    | some name =>
      cases hfinds : t.finds n with
      | false =>
        rw [Node.localFetch?_eq_none fun _ _ => by simp [hfinds]]
        simp
      | true =>
        obtain ⟨id, he⟩ := ClassTable.exists_enclosing hfinds
        rw [Node.localFetch?_eq_some_iff.mpr ⟨Value.str?_eq_some_iff.mp hname, he, hk, hfinds⟩]
        simp

/-- Each fetch is counted once: it is renamed, skipped, or local without an entry. -/
theorem isFetch_toNat (m : RenameMap) (t : ClassTable) (n : Node) : n.kind.isFetch.toNat =
    (isHit m t n).toNat + (isMiss t n).toNat + (isUnlisted m t n).toNat := by
  unfold isHit isMiss isUnlisted
  cases n.kind.isFetch with
  | false => rfl
  | true =>
    cases hlocal : n.localFetch? t with
    | none => simp [fetchRewriting, hlocal]
    | some e =>
      cases fetchRewriting m t ⟨{}, n⟩ <;> rfl

structure Paired (map : RenameMap) (table : ClassTable) (old : List String) (x : Node) (y : Site) :
    Prop where
  relabelled : x.Relabelled old y.node
  wellFormed : y.node.WellFormed
  legible : (y.rewrite (fetchRewriting map table)).node.Legible

namespace Paired

variable {map : RenameMap} {table : ClassTable} {unit : List Node} {x : Node} {y : Site}
  (h : Paired map table (propertyNames unit) x y)

include h

theorem kind_eq : (y.rewrite (fetchRewriting map table)).node.kind = x.kind :=
  (Node.kind_rewrite ..).trans h.relabelled.kind

theorem propertyName?_of_isFetch (hk : x.kind.isFetch = true) :
    y.node.propertyName? = x.propertyName? := by
  rcases h.relabelled.name with hname | ⟨hitem, -⟩
  · exact hname
  · simp [hitem, Kind.isFetch] at hk

theorem isLocalAt_eq :
    table.isLocalAt (x, (y.rewrite (fetchRewriting map table)).node) = table.finds y.node := by
  have hfinds : table.finds (y.rewrite (fetchRewriting map table)).node = table.finds y.node :=
    table.finds_rewrite (fun ha => Or.inr (fetchRewriting_literal ha).1) y
  rw [ClassTable.isLocalAt, table.isLocal_of_legible h.legible, hfinds]
  cases table.finds y.node <;> rfl

theorem isDynamicFetch_eq : x.isDynamicFetch = y.node.isDynamicFetch := by
  unfold Node.isDynamicFetch
  rw [h.relabelled.kind]
  cases hk : x.kind.isFetch with
  | false => rfl
  | true => rw [h.propertyName?_of_isFetch hk]

theorem isLiteralFetch_eq : x.isLiteralFetch = y.node.isLiteralFetch := by
  unfold Node.isLiteralFetch
  rw [h.relabelled.kind]
  cases hk : x.kind.isFetch with
  | false => rfl
  | true => rw [h.propertyName?_of_isFetch hk]

omit h in
theorem propertyName?_rewrite (hnone : fetchRewriting map table y = none) :
    (y.rewrite (fetchRewriting map table)).node.propertyName? = y.node.propertyName? := by
  have hname : ((y.node.rewrite (fetchRewriting map table) y.spot).get .name).str? =
      (y.node.get .name).str? := Node.str?_name_rewrite hnone
  simp only [Node.propertyName?, Site.rewrite, Node.kind_rewrite, hname]

theorem item_isRenamed :
    (x.kind == .propertyItem && isRenamed (x, (y.rewrite (fetchRewriting map table)).node)) =
      y.node.isNewItem (propertyNames unit) := by
  unfold Node.isNewItem isRenamed
  rw [h.relabelled.kind]
  by_cases hk : x.kind = .propertyItem
  · have hnone : fetchRewriting map table y = none := by
      rw [Option.eq_none_iff_forall_ne_some]
      intro a ha
      have hfetch := (fetchRewriting_literal ha).1
      simp [h.relabelled.kind, hk, Kind.isFetch] at hfetch
    obtain ⟨text, htext⟩ := h.wellFormed.item_name (h.relabelled.kind.trans hk)
    have hnew : y.node.propertyName? = some text :=
      Node.propertyName?_eq_some_iff.mpr ⟨Or.inl (h.relabelled.kind.trans hk), htext⟩
    dsimp only
    rw [propertyName?_rewrite hnone]
    rcases h.relabelled.name with hname | ⟨-, new, hname, hother⟩
    · have hold := h.relabelled.oldNamed text (hname ▸ hnew)
      rw [← hname, hnew]
      simp [hold]
    · have hne : x.propertyName? ≠ some new := fun hold => hother (h.relabelled.oldNamed new hold)
      rw [hname]
      simp [hk, hne, hother]
  · rw [beq_false_of_ne hk, Bool.false_and, Bool.false_and]

variable (hentries : ∀ e ∈ map.entries, NewEntry map.perClass table.scope unit e)

include hentries

theorem fetch_isRenamed :
    (x.kind.isFetch && isRenamed (x, (y.rewrite (fetchRewriting map table)).node)) =
      isHit map table y.node := by
  unfold isHit isRenamed
  rw [h.relabelled.kind]
  cases hk : x.kind.isFetch with
  | false => rfl
  | true =>
    have hname := h.propertyName?_of_isFetch hk
    change (x.propertyName? != _) = (fetchRewriting map table y).isSome
    cases hnew : fetchRewriting map table y with
    | none =>
      rw [propertyName?_rewrite hnew, hname]
      simp
    | some a =>
      have hfits := fits_fetchRewriting hentries
      have hget := Site.name_rewrite hfits h.wellFormed hnew
      have hother := newName_of_fetchRewriting hentries hnew
      obtain ⟨text, rfl⟩ := hfits.text hnew
      have hafter : (y.rewrite (fetchRewriting map table)).node.propertyName? = some text :=
        Node.propertyName?_eq_some_iff.mpr ⟨Or.inr (h.kind_eq ▸ hk), hget⟩
      have hne : x.propertyName? ≠ some text := fun hold =>
        hother.not_mem (h.relabelled.oldNamed text hold)
      rw [hafter]
      simp [hne]

omit hentries in
theorem keyAt?_eq (perClass : Bool) :
    table.keyAt? perClass (x, (y.rewrite (fetchRewriting map table)).node) =
      (y.node.localFetch? table).map fun e => propertyKey perClass table.scope e.1 (.text e.2) := by
  have hplace : (y.rewrite (fetchRewriting map table)).node.place = y.node.place :=
    Node.place_rewrite ..
  unfold ClassTable.keyAt? Node.localFetch?
  dsimp only
  rw [h.isLocalAt_eq, hplace, ← h.relabelled.kind]
  cases hk : y.node.kind.isFetch with
  | false => cases x.propertyName? <;> cases (y.node.get .name).str? <;>
      cases y.node.place.enclosing <;> rfl
  | true =>
    have hname : x.propertyName? = (y.node.get .name).str? := by
      rw [← h.propertyName?_of_isFetch (h.relabelled.kind ▸ hk)]
      simp [Node.propertyName?, hk]
    rw [hname]
    cases (y.node.get .name).str? with
    | none => rfl
    | some name =>
      cases y.node.place.enclosing with
      | none => rfl
      | some id => cases table.finds y.node <;> rfl

omit hentries in
theorem keyAt?_unlisted :
    ((table.keyAt? map.perClass (x, (y.rewrite (fetchRewriting map table)).node)).any fun key =>
      (RenameMap.find? key map.entries).isNone) = isUnlisted map table y.node := by
  rw [h.keyAt?_eq, isUnlisted]
  cases hlocal : y.node.localFetch? table with
  | none => simp
  | some e =>
    obtain ⟨-, -, hk, -⟩ := Node.localFetch?_eq_some_iff.mp hlocal
    simp only [fetchRewriting, hlocal, hk]
    rfl

end Paired

section Walks

variable {γ : Type} {unit nodes : List Node} {s : Session γ} {ignore : List Atom}
  {names : List (Option Atom)} {map : RenameMap} {table : ClassTable} (hu : WellFormed unit)
  (hnodes : nodes = (resolution unit s).1)
  (hnames : Declarations.Spares ignore (Declarations.NewName ((propertyNames nodes).map .text))
    (Declarations.requests nodes) names)

include hu hnodes hnames

theorem forall₂_relabelled : Forall₂ (Node.Relabelled (propertyNames nodes)) (preorder unit)
    (preorder (Declarations.rename names nodes)) := by
  have hwf : WellFormed nodes := hnodes ▸ wellFormed_resolution hu s
  have hresolved : Forall₂ (fun n m => m.kind = n.kind ∧ m.propertyName? = n.propertyName?)
      (preorder unit) (preorder nodes) := by
    rw [← map_node_sites, ← map_node_sites, List.forall₂_map_left_iff, List.forall₂_map_right_iff,
      hnodes]
    exact (resolved_sites hu s).imp fun _ _ h => ⟨h.kind, h.propertyName?⟩
  have hframed := forall₂_preorder_of_framed (Declarations.framed_rename hwf hnames) fun n hn =>
    (hwf n hn).filled
  have hold : ∀ n ∈ preorder unit, n.OldNamed (propertyNames nodes) := by
    intro n hn
    rw [hnodes, propertyNames_resolution hu]
    exact oldNamed_of_mem hn
  refine forall₂_trans_of_mem ?_ hresolved hframed
  rintro n hn m k ⟨hkind, hname⟩ ⟨spot, named, hmk⟩
  have hm : m.OldNamed (propertyNames nodes) := fun name h => hold n hn name (hname ▸ h)
  have h := Declarations.relabelled_of_framed hm hmk
  refine ⟨h.kind.trans hkind, hold n hn, ?_⟩
  rw [← hname, ← hkind]
  exact h.name

variable (hentries : ∀ e ∈ map.entries, NewEntry map.perClass table.scope nodes e)

include hentries

theorem forall₂_paired : Forall₂ (Paired map table (propertyNames nodes)) (preorder unit)
    (sites (Declarations.rename names nodes)) := by
  have hitems : WellFormed (Declarations.rename names nodes) :=
    Declarations.wellFormed_rename (hnodes ▸ wellFormed_resolution hu s) hnames
      fun _ h => h.exists_text
  have hfits := fits_fetchRewriting hentries
  have hsound := (hitems.rewriteUnit hfits).sound
  have h := forall₂_relabelled hu hnodes hnames
  rw [← map_node_sites (Declarations.rename names nodes), List.forall₂_map_right_iff] at h
  refine forall₂_imp_of_mem h fun x y hy hxy => ⟨hxy, hitems y.node (node_mem_preorder hy), ?_⟩
  refine (hsound _ ?_).legible
  rw [← map_node_sites, sites_rewriteUnit hfits hitems]
  exact List.mem_map_of_mem (List.mem_map_of_mem hy)

end Walks

section Pairs

variable {unit nodes items after : List Node} {map : RenameMap} {table : ClassTable}
  (hpaired : Forall₂ (Paired map table (propertyNames nodes)) (preorder unit) (sites items))
  (hafter : preorder after =
    (sites items).map fun y => (y.rewrite (fetchRewriting map table)).node)

include hpaired

/-- What is to be counted of the nodes of the unit can be read off what stands there before the
fetches are visited. -/
theorem countP_unit {p q : Node → Bool}
    (hpq : ∀ x y, Paired map table (propertyNames nodes) x y → p x = q y.node) :
    (preorder unit).countP p = (preorder items).countP q := by
  rw [← map_node_sites items, List.countP_map]
  exact countP_of_forall₂ hpaired hpq

include hafter

theorem countP_sideBySide {p : Node × Node → Bool} {q : Node → Bool}
    (hpq : ∀ x y, Paired map table (propertyNames nodes) x y →
      p (x, (y.rewrite (fetchRewriting map table)).node) = q y.node) :
    (sideBySide unit after).countP p = (preorder items).countP q := by
  rw [sideBySide, hafter, ← map_node_sites items, List.countP_map]
  exact countP_zip_map hpaired hpq

theorem map_kind_eq : (preorder after).map Node.kind = (preorder unit).map Node.kind := by
  rw [hafter, List.map_map, eq_comm, ← List.forall₂_eq_eq_eq, List.forall₂_map_left_iff,
    List.forall₂_map_right_iff]
  exact hpaired.imp fun x y h => h.kind_eq.symm

theorem countP_isMiss : (preorder items).countP (isMiss table) =
    (preorder unit).countP Node.isDynamicFetch + (sideBySide unit after).countP fun c =>
      c.1.isLiteralFetch && !table.isLocalAt c := by
  have hdynamic : (preorder unit).countP Node.isDynamicFetch =
      (preorder items).countP Node.isDynamicFetch :=
    countP_unit hpaired fun x y h => h.isDynamicFetch_eq
  have hliteral : (sideBySide unit after).countP (fun c =>
      c.1.isLiteralFetch && !table.isLocalAt c) =
      (preorder items).countP fun n => n.isLiteralFetch && !table.finds n :=
    countP_sideBySide hpaired hafter fun x y h => by rw [h.isLocalAt_eq, h.isLiteralFetch_eq]
  rw [hdynamic, hliteral]
  simp only [countP_eq_sum, isMiss_toNat, List.sum_map_add]

theorem countP_isHit_add_isMiss :
    (preorder items).countP (isHit map table) + (preorder items).countP (isMiss table) +
      (sideBySide unit after).countP (fun c => (table.keyAt? map.perClass c).any fun key =>
        (RenameMap.find? key map.entries).isNone) =
      (preorder unit).countP fun n => n.kind.isFetch := by
  have hunlisted : (sideBySide unit after).countP (fun c =>
      (table.keyAt? map.perClass c).any fun key => (RenameMap.find? key map.entries).isNone) =
      (preorder items).countP (isUnlisted map table) :=
    countP_sideBySide hpaired hafter fun x y h => h.keyAt?_unlisted
  have hfetches : (preorder unit).countP (fun n => n.kind.isFetch) =
      (preorder items).countP fun n => n.kind.isFetch :=
    countP_unit hpaired fun x y h => congrArg _ h.relabelled.kind.symm
  rw [hunlisted, hfetches]
  simp only [countP_eq_sum, isFetch_toNat map table, List.sum_map_add]

end Pairs

theorem countsExactly_of_ended {γ : Type} {supply : Names.Supply γ} {settings : Settings}
    {unit nodes : List Node} {s : Session γ} {t : Session (Renamer γ)}
    {d : Declarations.Drawing γ} {names : List (Option Atom)}
    {o : Outcome (Renamer γ) (List Node) (List Node)} (hu : WellFormed unit)
    (hnodes : nodes = (resolution unit s).1) (hended : Ended supply nodes t d names o)
    (hnames : Declarations.Spares t.own.ignore
      (Declarations.NewName ((propertyNames nodes).map .text)) (Declarations.requests nodes) names)
    (hperClass : d.map.perClass = settings.scopedKeys)
    (hentries : ∀ e ∈ d.map.entries, NewEntry d.map.perClass t.classes.scope nodes e) :
    CountsExactly settings t.classes unit (o.session.own.report o.subject) := by
  have hwf : WellFormed nodes := hnodes ▸ wellFormed_resolution hu s
  have hitems : WellFormed (Declarations.rename names nodes) :=
    Declarations.wellFormed_rename hwf hnames fun _ h => h.exists_text
  have hpaired := forall₂_paired hu hnodes hnames hentries
  have hdrawn : names.countP Option.isSome =
      (preorder (Declarations.rename names nodes)).countP (Node.isNewItem (propertyNames nodes)) := by
    rw [Declarations.countP_rename hwf (fun _ hn => oldNamed_of_mem hn) hnames,
      ← Declarations.Terms.length_serveAll hended.served, List.take_length]
  rw [report, hended.own]
  obtain ⟨items, hdef⟩ : ∃ items, items = Declarations.rename names nodes := ⟨_, rfl⟩
  rw [← hdef] at hitems hpaired hdrawn ⊢
  have hafter : preorder o.subject = (sites items).map fun y =>
      (y.rewrite (fetchRewriting d.map t.classes)).node := by
    rw [hended.subject, ← hdef, ← map_node_sites,
      sites_rewriteUnit (fits_fetchRewriting hentries) hitems, List.map_map]
    rfl
  exact {
    kinds := map_kind_eq hpaired hafter
    declarations :=
      hdrawn.trans (countP_sideBySide hpaired hafter fun x y h => h.item_isRenamed).symm
    fetches := (countP_sideBySide hpaired hafter fun x y h => h.fetch_isRenamed hentries).symm
    skipped := countP_isMiss hpaired hafter
    total := by
      rw [← hperClass]
      exact countP_isHit_add_isMiss hpaired hafter }

end Renamer

theorem countsExactly_renameWith {γ : Type} {supply : Names.Supply γ} {Kept : γ → Prop}
    (hfresh : Names.Fresh supply Kept) {settings : Settings} {unit : List Node}
    (hu : WellFormed unit) {s : Session γ} (hs : s.log.Quiet) (hkept : Kept s.own) {report : Report}
    (h : (renameWith supply settings unit s).reply = .ok report) :
    CountsExactly settings (renameWith supply settings unit s).session.classes unit report := by
  cases hcheck : settings.check with
  | error e => simp [renameWith, hcheck, Session.fail] at h
  | ok strategy =>
    obtain ⟨t, hquiet, -, hown, hrun⟩ := exists_walk supply hcheck hu hs
    obtain ⟨nodes, hnodes⟩ : ∃ nodes, nodes = (resolution unit s).1 := ⟨_, rfl⟩
    rw [← hnodes] at hrun
    rw [hrun] at h ⊢
    dsimp only at h ⊢
    cases hreply : (traverse (depth nodes) [Renamer.visitor supply] nodes t).reply with
    | error e => simp [hreply, Except.map] at h
    | ok walked =>
      have hwf : WellFormed nodes := hnodes ▸ wellFormed_resolution hu s
      have hmemory : Kept t.own.memory := by
        rw [hown]
        exact hkept
      obtain ⟨d, names, hended, hnames, hperClass, hentries⟩ :=
        Renamer.exists_fresh_end hfresh hwf le_rfl hquiet hmemory hreply
      have hscoped : d.map.perClass = settings.scopedKeys := by
        rw [hperClass, hown]
        rfl
      have hcounts :=
        Renamer.countsExactly_of_ended hu hnodes hended hnames hscoped hentries
      rw [hended.reply] at h
      obtain rfl := Except.ok.inj h
      rw [← hended.classes] at hcounts
      exact hcounts

/-- After a run that comes to its end, the counters of its report are exact: with any fresh supply,
and with the names that the settings ask for. -/
theorem renameUnit_counts_exactly (settings : Settings) {unit : List Node} (hu : WellFormed unit) :
    (∀ {γ : Type} {supply : Names.Supply γ} {Kept : γ → Prop}, Names.Fresh supply Kept →
      ∀ (s : Session γ) (report : Report), s.log.Quiet → Kept s.own →
      (renameWith supply settings unit s).reply = .ok report →
      CountsExactly settings (renameWith supply settings unit s).session.classes unit report) ∧
    ∀ (s : Session Unit) (report : Report), s.log.Quiet →
      (renameUnit settings unit s).reply = .ok report →
      CountsExactly settings (renameUnit settings unit s).session.classes unit report := by
  constructor
  · intro γ supply Kept hfresh s report hs hkept h
    exact countsExactly_renameWith hfresh hu hs hkept h
  · intro s report hs h
    unfold renameUnit at h ⊢
    split at h
    · cases h
    · cases h
    · rename_i source hcheck hsource
      exact countsExactly_renameWith Names.fresh_draw hu (s := s.withOwn source) hs
        (Names.Source.searches_ofSettings hsource) h

section Sample

/-- A class with a fetch of each sort: one whose name is fetched in turn, one on another object, and
one of a property that is not declared. -/
def fetchingUnit : List Node :=
  [⟨.classDecl 0, {}, [.str "Point",
    .list [.node ⟨.propertyDecl, {}, [.int 4, .list [sampleItem "x", sampleItem "y"]]⟩,
      .node ⟨.exprStmt, {}, [.node ⟨.fetch, {}, [.node ⟨.variableRef, {}, [.str "this"]⟩,
        .node ⟨.fetch, {}, [.node ⟨.variableRef, {}, [.str "this"]⟩, .str "x", .bool false]⟩,
        .bool false]⟩]⟩,
      sampleFetch "other" "y", sampleFetch "this" "z"], .null, .null]⟩]

theorem wellFormed_fetchingUnit : WellFormed fetchingUnit := by decide

/-- Of the four fetches one is renamed, two are skipped and one has no entry. -/
theorem renameUnit_counts_exactly_sample :
    let settings : Settings := { scopedKeys := true, ignore := [.text "y"] }
    let s := sampleSession.withOwn (Names.Source.numbered 0)
    WellFormed fetchingUnit ∧ Log.Quiet {} ∧ (preorder fetchingUnit).countP (·.kind.isFetch) = 4 ∧
    (∃ report, (renameWith Names.Source.draw settings fetchingUnit s).reply = .ok report ∧
      (report.declarations, report.fetches, report.skipped) = (1, 1, 2) ∧
      CountsExactly settings (renameWith Names.Source.draw settings fetchingUnit s).session.classes
        fetchingUnit report) ∧
    ∃ report, (renameUnit settings fetchingUnit sampleSession).reply = .ok report ∧
      (report.declarations, report.fetches, report.skipped) = (1, 1, 2) ∧
      CountsExactly settings (renameUnit settings fetchingUnit sampleSession).session.classes
        fetchingUnit report := by
  intro settings s
  have hquiet : Log.Quiet {} := by decide
  obtain ⟨hwith, hunit⟩ := renameUnit_counts_exactly settings wellFormed_fetchingUnit
  have hfirst : ((renameWith Names.Source.draw settings fetchingUnit s).reply.map fun r =>
      (r.declarations, r.fetches, r.skipped)) = .ok (1, 1, 2) := by
    decide +kernel
  have hsecond : ((renameUnit settings fetchingUnit sampleSession).reply.map fun r =>
      (r.declarations, r.fetches, r.skipped)) = .ok (1, 1, 2) := by
    decide +kernel
  refine ⟨wellFormed_fetchingUnit, hquiet, by decide, ?_, ?_⟩
  · cases hreply : (renameWith Names.Source.draw settings fetchingUnit s).reply with
    | error e => simp [hreply, Except.map] at hfirst
    | ok report =>
      rw [hreply] at hfirst
      exact ⟨report, rfl, Except.ok.inj hfirst,
        hwith Names.fresh_draw s report hquiet trivial hreply⟩
  · cases hreply : (renameUnit settings fetchingUnit sampleSession).reply with
    | error e => simp [hreply, Except.map] at hsecond
    | ok report =>
      rw [hreply] at hsecond
      exact ⟨report, rfl, Except.ok.inj hsecond, hunit sampleSession report hquiet hreply⟩

end Sample

end PropertyRenaming
