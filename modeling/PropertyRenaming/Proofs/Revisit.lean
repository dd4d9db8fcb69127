import PropertyRenaming.Proofs.FreshWalk

namespace PropertyRenaming

namespace Renamer

variable {γ : Type} {supply : Names.Supply γ} {Kept : γ → Prop} {limit : Nat} {unit : List Node}
  {s : Session (Renamer γ)} {n : Node}

section Entries

variable {map : RenameMap} {table : ClassTable}
  (hentries : ∀ e ∈ map.entries, NewEntry map.perClass table.scope unit e)
  (hcolon : map.perClass = true → ColonFree unit)

include hentries hcolon

theorem get?_of_newName {name : String}
    (hname : Declarations.NewName ((propertyNames unit).map .text) (.text name)) (id : ClassId) :
    map.get? (propertyKey map.perClass table.scope id (.text name)) = none := by
  obtain ⟨text, htext, hidentifier⟩ := hname.1
  obtain rfl := Atom.text.inj htext
  apply RenameMap.find?_eq_none_iff.mpr
  intro e he hcode
  obtain ⟨⟨owner, old, hold, hkey⟩, -⟩ := hentries e he
  rw [hkey, code_propertyKey] at hcode
  -- Neither name has a colon, so the keys can only be the same if the names are.
  obtain ⟨rfl, -⟩ := propertyKey_inj (fun hp => hcolon hp old hold)
    (fun _ => Names.colon_not_mem_of_isIdentifier hidentifier) hcode
  exact hname.not_mem hold

/-- Once a node is rewritten, it is not rewritten any more. -/
theorem fetchRewriting_rewrite {x : Site} (hx : x.node.WellFormed) :
    fetchRewriting map table (x.rewrite (fetchRewriting map table)) = none := by
  have hfits := fits_fetchRewriting hentries
  cases hnew : fetchRewriting map table x with
  | none =>
    rw [← hnew, fetchRewriting, fetchRewriting, Site.localFetch?_rewrite hfits table fun _ => hnew]
  | some a =>
    have hname := Site.name_rewrite hfits hx hnew
    obtain ⟨text, rfl⟩ := hfits.text hnew
    rw [Option.eq_none_iff_forall_ne_some]
    intro b hb
    obtain ⟨⟨id, name⟩, hlocal, hget⟩ := Option.bind_eq_some_iff.mp hb
    obtain ⟨hname', -, -, -⟩ := Node.localFetch?_eq_some_iff.mp hlocal
    obtain rfl : text = name := Atom.text.inj (Value.atom.inj (hname.symm.trans hname'))
    simp [get?_of_newName hentries hcolon (newName_of_fetchRewriting hentries hnew)] at hget

end Entries

/-- A node that visiting leaves as it is. -/
structure Settled (s : Session (Renamer γ)) (n : Node) : Prop where
  legible : n.Legible
  kept : fetchRewriting s.own.map s.classes ⟨{}, n⟩ = none

theorem reply_enter (hs : s.log.Quiet) (hn : Settled s n) : (enter n s).reply = .ok .keep := by
  have hentered := entered (s := s) hn.legible
  generalize enter n s = o at hentered ⊢
  cases hentered with
  | passed _ | unlisted _ _ => rfl
  | dynamic _ _ => exact congrArg Outcome.reply (skip_eq hs n (by simp [dynamicFetch]))
  | foreign _ _ _ => exact congrArg Outcome.reply (skip_eq hs n (by simp [foreignFetch]))
  | renamed _ hnew =>
    rw [hn.kept] at hnew
    cases hnew

/-- Visiting such a node changes nothing but the count of what is skipped. -/
theorem enter_settled (hs : s.log.Quiet) (hn : Settled s n) :
    (enter n s).reply = .ok .keep ∧ (enter n s).subject = n ∧ Keeps s (enter n s).session ∧
      (enter n s).session.own.fetches = s.own.fetches := by
  refine ⟨reply_enter hs hn, ?_, keeps_enter n s, ?_⟩
  · obtain ⟨r, -, henter⟩ := enter_eq hs hn.legible
    rw [henter, hn.kept]
    rfl
  · rw [own_enter hn.legible, tallied_eq]
    simp [isHit, hn.kept]

theorem Keeps.quiet {t : Session (Renamer γ)} (h : Keeps s t) (hs : s.log.Quiet) : t.log.Quiet :=
  hs.of_threshold h.threshold

theorem Settled.of_keeps {t : Session (Renamer γ)} (hn : Settled s n) (h : Keeps s t) :
    Settled t n := by
  refine ⟨hn.legible, ?_⟩
  rw [h.map, h.classes]
  exact hn.kept

/-- The session after some nodes have been visited, one after the other. -/
def revisited (visits : List Node) (s : Session (Renamer γ)) : Session (Renamer γ) :=
  visits.foldl (fun s n => (enter n s).session) s

theorem keeps_revisited {visits : List Node} (hs : s.log.Quiet)
    (hvisits : ∀ n ∈ visits, Settled s n) :
    Keeps s (revisited visits s) ∧ (revisited visits s).own.fetches = s.own.fetches := by
  induction visits generalizing s with
  | nil => exact ⟨.refl s, rfl⟩
  | cons n visits ih =>
    rw [List.forall_mem_cons] at hvisits
    obtain ⟨-, -, hkeeps, hfetches⟩ := enter_settled hs hvisits.1
    obtain ⟨hkeeps', hfetches'⟩ := ih (hkeeps.quiet hs) fun m hm => (hvisits.2 m hm).of_keeps hkeeps
    exact ⟨hkeeps.trans hkeeps', hfetches'.trans hfetches⟩

theorem settled_of_walk (hfresh : Names.Fresh supply Kept) (hu : WellFormed unit)
    (hd : depth unit ≤ limit) (hs : s.log.Quiet) (hkept : Kept s.own.memory)
    (hcolon : s.own.map.perClass = true → ColonFree unit) {nodes : List Node}
    (h : (traverse limit [visitor supply] unit s).reply = .ok nodes) :
    (traverse limit [visitor supply] unit s).session.log.Quiet ∧
      ∀ n ∈ preorder nodes, Settled (traverse limit [visitor supply] unit s).session n := by
  obtain ⟨d, names, hended, hnew, hperClass, hentries⟩ := exists_fresh_end hfresh hu hd hs hkept h
  refine ⟨hended.quiet, fun n hn => ?_⟩
  have hitems : WellFormed (Declarations.rename names unit) :=
    Declarations.wellFormed_rename hu hnew fun _ h => h.exists_text
  have hfits := fits_fetchRewriting hentries
  obtain rfl := Except.ok.inj (hended.reply.symm.trans h)
  have hwf := (hitems.rewriteUnit hfits).sound
  rw [hended.subject] at hn
  refine ⟨(hwf n hn).legible, ?_⟩
  rw [hended.own, hended.classes]
  rw [← map_node_sites, sites_rewriteUnit hfits hitems, List.map_map] at hn
  obtain ⟨x, hx, rfl⟩ := List.mem_map.mp hn
  exact fetchRewriting_rewrite hentries (hperClass ▸ hcolon) (hitems x.node (node_mem_preorder hx))

/-- Visiting nodes after a walk whose names are fresh has no effect on them, on the map or on the
count of renamed fetches. -/
theorem enter_after_walk (hfresh : Names.Fresh supply Kept) (hu : WellFormed unit)
    (hs : s.log.Quiet) (hkept : Kept s.own.memory)
    (hcolon : s.own.map.perClass = true → ColonFree unit) {tree nodes : List Node}
    (hresolve : (resolveUnit unit s).reply = .ok tree) (hlimit : depth unit ≤ limit)
    (hwalk : (traverse limit [visitor supply] tree (resolveUnit unit s).session).reply = .ok nodes)
    {visits : List Node} (hvisits : ∀ m ∈ visits, m ∈ preorder nodes) (hn : n ∈ preorder nodes) :
    let walked := (traverse limit [visitor supply] tree (resolveUnit unit s).session).session
    let again := enter n (revisited visits walked)
    again.reply = .ok .keep ∧ again.subject = n ∧ again.session.own.map = walked.own.map ∧
      again.session.own.fetches = walked.own.fetches ∧
      again.session.classes = walked.classes := by
  intro walked again
  obtain ⟨hresolved, hcalm⟩ := resolveUnit_eq hu hs
  rw [hresolved] at hresolve
  obtain rfl := Except.ok.inj hresolve
  have hsession : (resolveUnit unit s).session = (resolution unit s).2.withOwn s.own :=
    congrArg Outcome.session hresolved
  have hcolon' : s.own.map.perClass = true → ColonFree (resolution unit s).1 := by
    intro hp
    rw [ColonFree, propertyNames_resolution hu]
    exact hcolon hp
  obtain ⟨hquiet, hsettled⟩ : walked.log.Quiet ∧ ∀ n ∈ preorder nodes, Settled walked n := by
    apply settled_of_walk hfresh (wellFormed_resolution hu s)
      ((depth_resolution_le hu s).trans hlimit) _ _ _ hwalk
    · rw [hsession]
      exact hcalm.2
    · rw [hsession]
      exact hkept
    · rw [hsession]
      exact hcolon'
  obtain ⟨hkeeps, hfetches⟩ := keeps_revisited hquiet fun m hm => hsettled m (hvisits m hm)
  obtain ⟨hreply, hsubject, hlast, hcount⟩ :=
    enter_settled (hkeeps.quiet hquiet) ((hsettled n hn).of_keeps hkeeps)
  exact ⟨hreply, hsubject, hlast.map.trans hkeeps.map, hcount.trans hfetches,
    hlast.classes.trans hkeeps.classes⟩

section Sample

def numberedSession : Session (Renamer Names.Source) :=
  sampleSession.withOwn { memory := .numbered 0, map := { perClass := true } }

/-- Four fetches are renamed. Visiting all nodes twice, and then any of them, changes none. -/
theorem enter_after_walk_sample :
    WellFormed sampleUnit ∧ ColonFree sampleUnit ∧ numberedSession.log.Quiet ∧
    ∃ tree nodes, (resolveUnit sampleUnit numberedSession).reply = .ok tree ∧
      let o := traverse 5 [visitor Names.Source.draw] tree
        (resolveUnit sampleUnit numberedSession).session
      o.reply = .ok nodes ∧ o.session.own.fetches = 4 ∧ ∀ n ∈ preorder nodes,
        let again := enter n (revisited (preorder nodes ++ preorder nodes) o.session)
        again.reply = .ok .keep ∧ again.subject = n ∧ again.session.own.fetches = 4 := by
  have hquiet : numberedSession.log.Quiet := by decide
  obtain ⟨tree, hresolve⟩ : ∃ tree, (resolveUnit sampleUnit numberedSession).reply = .ok tree :=
    ⟨_, congrArg Outcome.reply (resolveUnit_eq wellFormed_sampleUnit hquiet).1⟩
  have hrun : ((resolveUnit sampleUnit numberedSession).reply.map fun tree =>
      let o := traverse 5 [visitor Names.Source.draw] tree
        (resolveUnit sampleUnit numberedSession).session
      (o.reply.isOk, o.session.own.fetches)) = .ok (true, 4) := by
    decide +kernel
  rw [hresolve] at hrun
  obtain ⟨hok, hfetches⟩ := Prod.mk.inj (Except.ok.inj hrun)
  cases hwalk : (traverse 5 [visitor Names.Source.draw] tree
      (resolveUnit sampleUnit numberedSession).session).reply with
  | error e => simp [hwalk, Except.isOk, Except.toBool] at hok
  | ok nodes =>
    refine ⟨wellFormed_sampleUnit, colonFree_sampleUnit, hquiet, tree, nodes, hresolve, hwalk,
      hfetches, fun n hn => ?_⟩
    have hvisits : ∀ m ∈ preorder nodes ++ preorder nodes, m ∈ preorder nodes := by simp
    obtain ⟨hreply, hsubject, -, hcount, -⟩ := enter_after_walk Names.fresh_draw
      wellFormed_sampleUnit hquiet trivial (fun _ => colonFree_sampleUnit) hresolve (by decide)
      hwalk hvisits hn
    exact ⟨hreply, hsubject, hcount.trans hfetches⟩

end Sample

end Renamer

end PropertyRenaming
