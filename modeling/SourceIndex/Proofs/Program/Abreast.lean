import Mathlib.Data.List.Forall2
import SourceIndex.Proofs.Program.Exchanges
/-!
# Programs abreast

`Program.abreast` runs a list of programs beside each other and ends with all of their values, in the order
of the programs, when the last of them has ended. Whose turn it is to make a request is said beforehand; a
theorem about all lists of turns is one about all interleavings, and without any turns the programs run one
after the other (`Program.inOrder`).

What such a run exchanges is the exchanges of its programs, mixed in some order (`yields_abreast`).
-/

namespace SourceIndex.Program

variable {I : Interface} {α β : Type}

/-- Run programs one after the other. -/
def inOrder : List (Program I α) → Program I (List α)
  | [] => return []
  | p :: ps => do
    let a ← p
    return a :: (← inOrder ps)

/-- Run programs beside each other. Each of `turns` says which of them makes the next request; the turn of a
program that has ended, or does not exist, is left out. When the turns are used up, what is left of the
programs runs in order. -/
def abreast : List Nat → List (Program I α) → Program I (List α)
  | [], ps => inOrder ps
  | i :: turns, ps =>
    match ps[i]? with
    | some (call r next) => call r fun x => abreast turns (ps.set i (next x))
    | _ => abreast turns ps

/-- Of a list that an entry was replaced in, a pointwise relation gives one of the list itself, if it gives it of
each entry, and of the entry that was there before from the one that was put in its place. -/
theorem forall₂_of_set {R R' : Program I α → β → Prop} {ps : List (Program I α)} {p q : Program I α}
    {as : List β} {i : Nat} (hp : ps[i]? = some p) (h : List.Forall₂ R (ps.set i q) as)
    (himp : ∀ p b, R p b → R' p b) (hback : ∀ b, R q b → R' p b) : List.Forall₂ R' ps as := by
  induction ps generalizing i as with
  | nil => cases hp
  | cons first ps ih =>
    cases i with
    | zero =>
      obtain rfl : first = p := Option.some_inj.1 hp
      cases h with
      | cons hhead htail => exact .cons (hback _ hhead) (htail.imp himp)
    | succ i =>
      cases h with
      | cons hhead htail => exact .cons (himp _ _ hhead) (ih hp htail)

variable {turns : List Nat} {ps : List (Program I α)}

/-- The values of programs are what their own exchanges lead them to, which are among those of the trace. -/
def Reaches (trace : List (Exchange I)) (ps : List (Program I α)) (as : List α) : Prop :=
  List.Forall₂ (fun p a => ∃ part, part.Sublist trace ∧ Follows p part (done a)) ps as

theorem Reaches.mono {trace more : List (Exchange I)} {as : List α} (h : Reaches trace ps as)
    (hsub : trace.Sublist more) : Reaches more ps as :=
  List.Forall₂.imp (fun _ _ ⟨part, hpart, hfollows⟩ => ⟨part, hpart.trans hsub, hfollows⟩) h

theorem yields_inOrder (ps : List (Program I α)) :
    (inOrder ps).Yields fun as trace => Reaches trace ps as := by
  induction ps with
  | nil => exact yields_pure .nil
  | cons p ps ih =>
    intro as trace h
    obtain ⟨a, first, rest, rfl, hfirst, hrest⟩ := follows_bind_iff.1 h
    obtain ⟨others, second, last, rfl, hsecond, hlast⟩ := follows_bind_iff.1 hrest
    obtain ⟨rfl, rfl⟩ := follows_done_iff.1 hlast
    refine .cons ⟨first, List.sublist_append_left .., hfirst⟩ ?_
    rw [List.append_nil]
    exact (ih others second hsecond).mono (List.sublist_append_right ..)

/-- Programs that run beside each other come to what each of them comes to with its own exchanges. -/
theorem yields_abreast (turns : List Nat) (ps : List (Program I α)) :
    (abreast turns ps).Yields fun as trace => Reaches trace ps as := by
  induction turns generalizing ps with
  | nil => exact yields_inOrder ps
  | cons i turns ih =>
    rw [abreast]
    split
    · rename_i r next hp
      intro as trace h
      obtain ⟨x, rest, rfl, hrest⟩ := follows_call_iff.1 h
      refine forall₂_of_set hp (ih _ as rest hrest) ?_ ?_
      · rintro q a ⟨part, hpart, hfollows⟩
        exact ⟨part, hpart.cons _, hfollows⟩
      · rintro a ⟨part, hpart, hfollows⟩
        exact ⟨⟨r, x⟩ :: part, hpart.cons_cons _, .cons x hfollows⟩
    · exact ih ps

/-- What each of the programs requests behind an exchange that opens the way to it is requested behind such an
exchange when they run beside each other. -/
theorem guarded_inOrder {opens : Exchange I → Prop} {kind : I.Request → Prop}
    (h : ∀ p ∈ ps, p.Guarded opens kind) : (inOrder ps).Guarded opens kind := by
  induction ps with
  | nil => trivial
  | cons p ps ih =>
    obtain ⟨hp, hps⟩ := List.forall_mem_cons.1 h
    exact Guarded.bind hp fun _ => Guarded.bind (ih hps) fun _ => trivial

theorem guarded_abreast {opens : Exchange I → Prop} {kind : I.Request → Prop}
    (h : ∀ p ∈ ps, p.Guarded opens kind) : (abreast turns ps).Guarded opens kind := by
  induction turns generalizing ps with
  | nil => exact guarded_inOrder h
  | cons i turns ih =>
    rw [abreast]
    split
    · rename_i r next hp
      have hcall := h _ (List.mem_of_getElem? hp)
      refine ⟨hcall.1, fun x => (hcall.2 x).imp_right fun hnext => ih fun q hq => ?_⟩
      rcases List.mem_or_eq_of_mem_set hq with hold | rfl
      · exact h q hold
      · exact hnext
    · exact ih h

end SourceIndex.Program
