import Mathlib.Tactic.SplitIfs
import SourceIndex.Proofs.Entries
import SourceIndex.Proofs.Ignore.Walks
/-!
# Replacing a file

A change at the end of a way shows there and nowhere else in its directory (`Node.of_update`). As long as
every directory stays one, every path that resolves keeps doing so (`Disk.resolve_of_keepsDirs`). So a
file that is written under another name in its directory and then renamed has what was written
(`Disk.readText_of_replace`).
-/

namespace SourceIndex

theorem exists_of_bind_ok {ε α β : Type} {x : Except ε α} {f : α → Except ε β} {b : β}
    (h : (x >>= f) = .ok b) : ∃ a, x = .ok a ∧ f a = .ok b := by
  cases x with
  | error e => cases h
  | ok a => exact ⟨a, rfl, h⟩

namespace Node

variable {entries : List (String × Node)} {name other : String} {names way : List String} {n m k : Node}
  {node : Option Node} {change : Option Node → Except IoFailure (Option Node)}

/-- After a change of an entry its name leads to what was put there, every other name where it led. -/
theorem child?_setEntry :
    child? (setEntry entries name node) other = if other = name then node else child? entries other := by
  cases node with
  | none => exact Entries.get?_erase
  | some n => exact Entries.get?_put

theorem find_cons : (dir entries).find (name :: names) =
    match child? entries name with
    | some child => child.find names
    | none => .error .notFound := rfl

/-- What stands at the end of a way is the entry of the directory above. -/
theorem find_concat (h : n.find names = .ok (.dir entries)) : n.find (names ++ [name]) =
    match child? entries name with
    | some child => .ok child
    | none => .error .notFound := by
  rw [find_append, h]
  rfl

theorem find_concat_ne_dir (h : n.find names = .ok (.dir entries))
    (hchild : ∀ inner, child? entries name ≠ some (.dir inner)) (inner : List (String × Node)) :
    n.find (names ++ [name]) ≠ .ok (.dir inner) := by
  rw [find_concat h]
  split
  · rename_i child heq
    rintro ⟨⟩
    exact hchild inner heq
  · nofun

/-- A change is one of an entry: either the one that the way ends at, or one further down. -/
theorem of_update (h : n.update change (name :: names) = .ok m) :
    ∃ entries changed, n = .dir entries ∧ m = .dir (setEntry entries name changed) ∧
      (names = [] ∧ change (child? entries name) = .ok changed ∨
        ∃ child below, names ≠ [] ∧ child? entries name = some child ∧
          child.update change names = .ok below ∧ changed = some below) := by
  cases n with
  | file bytes => cases h
  | dir entries =>
    cases names with
    | nil =>
      obtain ⟨changed, hchange, hm⟩ := exists_of_bind_ok h
      cases hm
      exact ⟨entries, changed, rfl, rfl, .inl ⟨rfl, hchange⟩⟩
    | cons second names =>
      rw [update] at h
      split at h
      · cases h
      · rename_i child hchild
        obtain ⟨below, hbelow, hm⟩ := exists_of_bind_ok h
        cases hm
        exact ⟨entries, some below, rfl, rfl, .inr ⟨child, below, nofun, hchild, hbelow, rfl⟩⟩

/-- Seen from the directory that the way leads to, only its own entry changes. -/
theorem of_update_concat (h : n.update change (names ++ [name]) = .ok m) :
    ∃ entries changed, n.find names = .ok (.dir entries) ∧
      change (child? entries name) = .ok changed ∧
      m.find names = .ok (.dir (setEntry entries name changed)) := by
  induction names generalizing n m with
  | nil =>
    obtain ⟨entries, changed, rfl, rfl, ⟨-, hchange⟩ | ⟨-, -, hne, -⟩⟩ := of_update h
    · exact ⟨entries, changed, rfl, hchange, rfl⟩
    · exact absurd rfl hne
  | cons first names ih =>
    obtain ⟨entries, changed, rfl, rfl, ⟨hnil, -⟩ | ⟨child, below, -, hchild, hbelow, rfl⟩⟩ := of_update h
    · cases List.append_ne_nil_of_right_ne_nil names (List.cons_ne_nil name []) hnil
    · obtain ⟨inner, changed, hfind, hchange, hafter⟩ := ih hbelow
      refine ⟨inner, changed, ?_, hchange, ?_⟩
      · rwa [find_cons, hchild]
      · rwa [find_cons, child?_setEntry, if_pos rfl]

/-- Every directory of the one tree is a directory of the other. -/
def KeepsDirs (n m : Node) : Prop :=
  ∀ way entries, n.find way = .ok (.dir entries) → ∃ others, m.find way = .ok (.dir others)

theorem KeepsDirs.trans (h : n.KeepsDirs m) (h' : m.KeepsDirs k) : n.KeepsDirs k := by
  intro way entries hdir
  obtain ⟨others, hothers⟩ := h way entries hdir
  exact h' way others hothers

/-- A change where no directory stands takes none away. -/
theorem keepsDirs_of_update (h : n.update change names = .ok m)
    (hfile : ∀ entries, n.find names ≠ .ok (.dir entries)) : n.KeepsDirs m := by
  intro way
  induction names generalizing n m way with
  | nil => cases h
  | cons name names ih =>
    obtain ⟨entries, changed, rfl, rfl, hcase⟩ := of_update h
    cases way with
    | nil => exact fun _ _ => ⟨_, rfl⟩
    | cons first way =>
      intro others hdir
      rw [find_cons, child?_setEntry]
      rw [find_cons] at hdir
      by_cases hfirst : first = name
      · subst hfirst
        rw [find_cons] at hfile
        rw [if_pos rfl]
        rcases hcase with ⟨rfl, -⟩ | ⟨child, below, -, hchild, hbelow, rfl⟩
        · -- Below a file there is no directory, and it is none itself.
          cases hchild : child? entries first with
          | none =>
            rw [hchild] at hdir
            cases hdir
          | some child =>
            rw [hchild] at hdir hfile
            cases child with
            | dir inner => exact absurd rfl (hfile inner)
            | file bytes => cases way <;> cases hdir
        · rw [hchild] at hdir hfile
          exact ih hbelow hfile way others hdir
      · rw [if_neg hfirst]
        exact ⟨others, hdir⟩

end Node

namespace Disk

variable {disk after : Disk} {path source target : String} {names base : List String}
  {next : List String} {component : Path.Component} {components : List Path.Component}
  {bytes : ByteArray} {name other : String}

/-- A step that succeeds goes on from a directory, and does so wherever that is one. -/
theorem resolveStep_of_keepsDirs (hkeeps : disk.tree.KeepsDirs after.tree)
    (h : disk.resolveStep names component = .ok next) :
    after.resolveStep names component = .ok next := by
  cases component with
  | root | current => exact h
  | parent | name =>
    obtain ⟨here, hfind, hnext⟩ := exists_of_bind_ok h
    cases here with
    | file bytes => cases hnext
    | dir entries =>
      obtain ⟨others, hafter⟩ := hkeeps names entries hfind
      unfold resolveStep
      rw [hafter]
      exact hnext

theorem foldlM_of_keepsDirs (hkeeps : disk.tree.KeepsDirs after.tree)
    (h : components.foldlM disk.resolveStep names = .ok next) :
    components.foldlM after.resolveStep names = .ok next := by
  induction components generalizing names with
  | nil => exact h
  | cons component components ih =>
    rw [List.foldlM_cons] at h ⊢
    obtain ⟨middle, hmiddle, hrest⟩ := exists_of_bind_ok h
    rw [resolveStep_of_keepsDirs hkeeps hmiddle]
    exact ih hrest

/-- A path that resolves does so as long as every directory stays one. -/
theorem resolve_of_keepsDirs (hkeeps : disk.tree.KeepsDirs after.tree)
    (h : disk.resolve path = .ok names) : after.resolve path = .ok names := by
  unfold resolve at h ⊢
  split_ifs at h ⊢
  exact foldlM_of_keepsDirs hkeeps h

/-- A path that ends with a name resolves to that name in the directory that the rest resolves to. -/
theorem of_resolve (hpath : Path.components path = components ++ [.name name])
    (h : disk.resolve path = .ok names) :
    ∃ base, components.foldlM disk.resolveStep [] = .ok base ∧ names = base ++ [name] := by
  unfold resolve at h
  split_ifs at h
  rw [hpath, List.foldlM_append] at h
  obtain ⟨base, hbase, hlast⟩ := exists_of_bind_ok h
  refine ⟨base, hbase, ?_⟩
  obtain ⟨next, hnext, hnil⟩ := exists_of_bind_ok hlast
  cases hnil
  obtain ⟨here, -, hname⟩ := exists_of_bind_ok hnext
  split_ifs at hname
  cases hname
  rfl

/-- A file that is written stands where its path leads, and every directory stays one. -/
theorem of_write (h : disk.write path bytes = .ok after)
    (hnames : disk.resolve path = .ok (base ++ [name])) :
    disk.tree.KeepsDirs after.tree ∧ after.tree.find (base ++ [name]) = .ok (.file bytes) := by
  obtain ⟨names, hresolve, hput⟩ := exists_of_bind_ok h
  cases hnames.symm.trans hresolve
  obtain ⟨tree, hupdate, hafter⟩ := exists_of_bind_ok hput
  cases hafter
  obtain ⟨entries, changed, hbefore, hchange, hbase⟩ := Node.of_update_concat hupdate
  split at hchange
  · cases hchange
  · rename_i hfile
    cases hchange
    refine ⟨Node.keepsDirs_of_update hupdate (Node.find_concat_ne_dir hbefore hfile), ?_⟩
    rw [Node.find_concat hbase, Node.child?_setEntry, if_pos rfl]

/-- A file that takes another name of its directory stands there, and every directory stays one. -/
theorem of_rename (h : disk.rename source target = .ok after)
    (hsource : disk.resolve source = .ok (base ++ [name]))
    (htarget : disk.resolve target = .ok (base ++ [other])) (hne : name ≠ other)
    (hfile : disk.tree.find (base ++ [name]) = .ok (.file bytes)) :
    disk.tree.KeepsDirs after.tree ∧ after.tree.find (base ++ [other]) = .ok (.file bytes) := by
  unfold rename at h
  obtain ⟨names, hnames, h⟩ := exists_of_bind_ok h
  cases hsource.symm.trans hnames
  obtain ⟨names, hnames, h⟩ := exists_of_bind_ok h
  cases htarget.symm.trans hnames
  obtain ⟨node, hnode, h⟩ := exists_of_bind_ok h
  cases hfile.symm.trans hnode
  dsimp only at h
  rw [if_neg (by simp [hne])] at h
  obtain ⟨middle, hplace, h⟩ := exists_of_bind_ok h
  obtain ⟨tree, herase, hafter⟩ := exists_of_bind_ok h
  cases hafter
  -- First the new name is put in: nothing but a file can stand there.
  obtain ⟨entries, changed, hbefore, hchange, hmiddle⟩ := Node.of_update_concat hplace
  obtain ⟨done, hmay, hchanged⟩ := exists_of_bind_ok hchange
  cases hchanged
  have hother : ∀ inner, Node.child? entries other ≠ some (.dir inner) := by
    intro inner hinner
    rw [hinner] at hmay
    cases hmay
  have hplaced := Node.keepsDirs_of_update hplace (Node.find_concat_ne_dir hbefore hother)
  -- Then the old name is taken out, which the file stands under as before.
  have hname : middle.find (base ++ [name]) = .ok (.file bytes) := by
    rw [Node.find_concat hbefore] at hfile
    rwa [Node.find_concat hmiddle, Node.child?_setEntry, if_neg hne]
  obtain ⟨inner, changed, hinner, hchange, hbase⟩ := Node.of_update_concat herase
  cases hmiddle.symm.trans hinner
  cases hchange
  constructor
  · refine hplaced.trans (Node.keepsDirs_of_update herase fun inner => ?_)
    rw [hname]
    nofun
  · rw [Node.find_concat hbase, Node.child?_setEntry, if_neg (Ne.symm hne), Node.child?_setEntry,
      if_pos rfl]

/-- What was written under one name of a directory and renamed to another one is read there. -/
theorem readText_of_replace {text : String} {middle : Disk}
    (hwrite : disk.write source text.toUTF8 = .ok middle) (hrename : middle.rename source target = .ok after)
    (hsource : Path.components source = components ++ [.name name])
    (htarget : Path.components target = components ++ [.name other]) (hne : name ≠ other)
    (hplain : demandsDirectory target = false) : after.readText target = .ok text := by
  obtain ⟨names, hnames, -⟩ := exists_of_bind_ok hwrite
  obtain ⟨base, hbase, rfl⟩ := of_resolve hsource hnames
  obtain ⟨hkept, hwritten⟩ := of_write hwrite hnames
  obtain ⟨sourceNames, -, hrest⟩ := exists_of_bind_ok hrename
  obtain ⟨targetNames, htargetNames, -⟩ := exists_of_bind_ok hrest
  obtain ⟨base', hbase', rfl⟩ := of_resolve htarget htargetNames
  cases (foldlM_of_keepsDirs hkept hbase).symm.trans hbase'
  obtain ⟨hrenamed, hfile⟩ := of_rename hrename (resolve_of_keepsDirs hkept hnames) htargetNames hne hwritten
  have hstat : after.stat target = .ok (.file text.toUTF8) := by
    rw [stat, resolve_of_keepsDirs hrenamed htargetNames]
    change (after.tree.find _ >>= _) = _
    rw [hfile]
    change (if true && demandsDirectory target then _ else _) = _
    rw [hplain]
    rfl
  have hread : after.read target = .ok text.toUTF8 := by
    rw [read, hstat]
    rfl
  have htext : String.fromUTF8? text.toUTF8 = some text := dif_pos text.isValidUTF8
  simp only [readText, hread, bind, Except.bind, htext]

end Disk

end SourceIndex
