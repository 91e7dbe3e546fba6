import Mathlib.Data.List.Nodup
import Mathlib.Logic.Function.Basic
import Mathlib.Tactic.Common

/-!
# Circular lists of linked nodes

A memory gives each node at most one successor and one predecessor.  `Path f a xs b`
says that following `f` from `a` one passes the nodes `xs` and comes to `b`, and
`Circle next prev h xs` that the nodes `xs` lie on a circle through `h`, one way by
`next` and the other way by `prev`.  A node is linked in before `h`, and unlinked
from where it is, by changing the links of its two neighbours.
-/

namespace Circles

open Function List

variable {N : Type*}

/-! ## Paths -/

def Path (f : N → Option N) : N → List N → N → Prop
  | a, [], b => f a = some b
  | a, x :: xs, b => f a = some x ∧ Path f x xs b

section Path

variable {f g : N → Option N} {a b c n : N} {xs ys : List N}

theorem path_append : Path f a (xs ++ n :: ys) b ↔ Path f a xs n ∧ Path f n ys b := by
  induction xs generalizing a with
  | nil => exact Iff.rfl
  | cons x xs ih =>
    rw [cons_append, Path, Path, ih, and_assoc]

theorem Path.congr (h : Path f a xs b) (hfg : ∀ x ∈ a :: xs, g x = f x) : Path g a xs b := by
  induction xs generalizing a with
  | nil => exact (hfg a mem_cons_self).trans h
  | cons x xs ih =>
    refine ⟨(hfg a mem_cons_self).trans h.1, ih h.2 fun y hy => ?_⟩
    exact hfg y (mem_cons_of_mem a hy)

theorem Path.first (h : Path f a xs b) : f a = some (xs.headD b) := by
  cases xs with
  | nil => exact h
  | cons x xs => exact h.1

theorem Path.restart (h : Path f a xs b) (hc : g c = some (xs.headD b))
    (hfg : ∀ x ∈ xs, g x = f x) : Path g c xs b := by
  cases xs with
  | nil => exact hc
  | cons x xs => exact ⟨hc, h.2.congr hfg⟩

theorem getLastD_mem (xs : List N) (a : N) : xs.getLastD a ∈ a :: xs := by
  induction xs generalizing a with
  | nil => exact mem_cons_self
  | cons x xs ih => grind

theorem Path.redirect [DecidableEq N] (h : Path f a xs b) (hnodup : (a :: xs).Nodup) (c : N) :
    Path (update f (xs.getLastD a) (some c)) a xs c := by
  induction xs generalizing a with
  | nil => exact update_self ..
  | cons x xs ih =>
    rw [getLastD_cons]
    obtain ⟨hax, hnodup⟩ := nodup_cons.mp hnodup
    have hne : a ≠ xs.getLastD x := fun heq => hax (heq ▸ getLastD_mem xs x)
    exact ⟨(update_of_ne hne ..).trans h.1, ih h.2 hnodup⟩

theorem Path.unique (hx : Path f a xs b) (hy : Path f a ys b) (hbx : b ∉ xs) (hby : b ∉ ys) :
    xs = ys := by
  induction xs generalizing a ys with
  | nil =>
    cases ys with
    | nil => rfl
    | cons y ys =>
      cases hx.symm.trans hy.1
      exact absurd mem_cons_self hby
  | cons x xs ih =>
    cases ys with
    | nil =>
      cases hx.1.symm.trans hy
      exact absurd mem_cons_self hbx
    | cons y ys =>
      cases hx.1.symm.trans hy.1
      rw [ih hx.2 hy.2 (not_mem_of_not_mem_cons hbx) (not_mem_of_not_mem_cons hby)]

theorem Path.unlink [DecidableEq N] (h : Path f a (xs ++ n :: ys) b)
    (hnodup : (a :: (xs ++ n :: ys)).Nodup) :
    Path (update (update f (xs.getLastD a) (some (ys.headD b))) n (some n)) a (xs ++ ys) b := by
  obtain ⟨hxs, hys⟩ := path_append.mp h
  rw [← cons_append] at hnodup
  obtain ⟨hnodup1, hnodup2, hdisj⟩ := nodup_append.mp hnodup
  have hlast := getLastD_mem xs a
  -- the nodes before `n`, then those after it
  have hbefore : Path (update (update f (xs.getLastD a) (some (ys.headD b))) n (some n)) a xs
      (ys.headD b) := by
    refine (hxs.redirect hnodup1 _).congr fun x hx => update_of_ne ?_ ..
    exact hdisj x hx n mem_cons_self
  cases ys with
  | nil =>
    rw [append_nil]
    exact hbefore
  | cons y ys =>
    refine path_append.mpr ⟨hbefore, hys.2.congr fun x hx => ?_⟩
    grind [update_of_ne]

end Path

/-! ## Circles -/

structure Circle (next prev : N → Option N) (h : N) (xs : List N) : Prop where
  forth : Path next h xs h
  back : Path prev h xs.reverse h
  nodup : (h :: xs).Nodup

section Circle

variable {next prev next' prev' : N → Option N} {h n : N} {xs ys : List N}

theorem circle_nil : Circle next prev h [] ↔ next h = some h ∧ prev h = some h :=
  ⟨fun hc => ⟨hc.forth, hc.back⟩, fun hc => ⟨hc.1, hc.2, nodup_singleton h⟩⟩

theorem Circle.congr (hc : Circle next prev h xs) (hnext : ∀ x ∈ h :: xs, next' x = next x)
    (hprev : ∀ x ∈ h :: xs, prev' x = prev x) : Circle next' prev' h xs := by
  refine ⟨hc.forth.congr hnext, hc.back.congr fun x hx => hprev x ?_, hc.nodup⟩
  grind

theorem headD_reverse (xs : List N) (a : N) : xs.reverse.headD a = xs.getLastD a := by simp

theorem getLastD_reverse (xs : List N) (a : N) : xs.reverse.getLastD a = xs.headD a := by
  rw [← headD_reverse, reverse_reverse]

theorem Circle.next_head (hc : Circle next prev h xs) : next h = some (xs.headD h) :=
  hc.forth.first

theorem Circle.prev_head (hc : Circle next prev h xs) : prev h = some (xs.getLastD h) := by
  rw [← headD_reverse]
  exact hc.back.first

theorem Circle.next_head_iff (hc : Circle next prev h xs) : next h = some h ↔ xs = [] := by
  rw [hc.next_head]
  cases xs with
  | nil => simp
  | cons x xs =>
    have hne : x ≠ h := fun heq => (nodup_cons.mp hc.nodup).1 (heq ▸ mem_cons_self)
    simp [hne]

theorem Circle.unique (hx : Circle next prev h xs) (hy : Circle next prev h ys) : xs = ys :=
  hx.forth.unique hy.forth (nodup_cons.mp hx.nodup).1 (nodup_cons.mp hy.nodup).1

theorem Path.agree {f g : N → Option N} {a b : N} (hf : Path f a xs b) (hg : Path g a xs b) :
    ∀ x ∈ a :: xs, g x = f x := by
  induction xs generalizing a with
  | nil =>
    intro x hx
    rw [mem_singleton.mp hx]
    exact Eq.trans hg (Eq.symm hf)
  | cons y ys ih =>
    intro x hx
    rcases mem_cons.mp hx with rfl | hx
    · exact hg.1.trans hf.1.symm
    · exact ih hf.2 hg.2 x hx

theorem Circle.agree (hc : Circle next prev h xs) (hc' : Circle next' prev' h xs) :
    ∀ x ∈ h :: xs, next' x = next x ∧ prev' x = prev x := by
  intro x hx
  refine ⟨hc.forth.agree hc'.forth x hx, hc.back.agree hc'.back x ?_⟩
  grind

theorem Circle.symm (hc : Circle next prev h xs) : Circle prev next h xs.reverse where
  forth := hc.back
  back := by
    rw [reverse_reverse]
    exact hc.forth
  nodup := by
    rw [nodup_cons, mem_reverse, nodup_reverse, ← nodup_cons]
    exact hc.nodup

theorem Circle.neighbours (hc : Circle next prev h (xs ++ n :: ys)) :
    next n = some (ys.headD h) ∧ prev n = some (xs.getLastD h) := by
  constructor
  · exact (path_append.mp hc.forth).2.first
  have hback := hc.back
  rw [reverse_append, reverse_cons, append_assoc] at hback
  rw [← headD_reverse]
  exact (path_append.mp hback).2.first

variable [DecidableEq N]

theorem Circle.push (hc : Circle next prev h xs) (hn : n ∉ h :: xs) :
    Circle (update (update next n (some h)) (xs.getLastD h) (some n))
      (update (update prev n (some (xs.getLastD h))) h (some n)) h (xs ++ [n]) := by
  have hlast : xs.getLastD h ≠ n := fun heq => hn (heq ▸ getLastD_mem xs h)
  have hhn : n ≠ h := fun heq => hn (heq ▸ mem_cons_self)
  refine ⟨path_append.mpr ⟨?_, ?_⟩, ?_, ?_⟩
  · have hold : Path (update next n (some h)) h xs h :=
      hc.forth.congr fun x hx => update_of_ne (fun heq : x = n => hn (heq ▸ hx)) ..
    exact hold.redirect hc.nodup n
  · exact (update_of_ne hlast.symm ..).trans (update_self ..)
  · rw [reverse_concat]
    refine ⟨update_self .., hc.back.restart ?_ fun x hx => ?_⟩
    · rw [update_of_ne hhn, update_self, headD_reverse]
    · rw [mem_reverse] at hx
      have hxh : x ≠ h := fun heq => (nodup_cons.mp hc.nodup).1 (heq ▸ hx)
      grind
  · refine nodup_append.mpr ⟨hc.nodup, nodup_singleton n, fun x hx y hy heq => ?_⟩
    exact hn (mem_singleton.mp hy ▸ heq ▸ hx)

theorem Circle.pushFront (hc : Circle next prev h xs) (hn : n ∉ h :: xs) :
    Circle (update (update next n (some (xs.headD h))) h (some n))
      (update (update prev n (some h)) (xs.headD h) (some n)) h (n :: xs) := by
  have hn' : n ∉ h :: xs.reverse := by grind
  have hpush := (hc.symm.push hn').symm
  grind

theorem Circle.unlink (hc : Circle next prev h (xs ++ n :: ys)) :
    Circle (update (update next (xs.getLastD h) (some (ys.headD h))) n (some n))
      (update (update prev (ys.headD h) (some (xs.getLastD h))) n (some n)) h (xs ++ ys) := by
  have hrev : (xs ++ n :: ys).reverse = ys.reverse ++ n :: xs.reverse := by simp
  have hback := hc.back
  rw [hrev] at hback
  have hnodup : (h :: (ys.reverse ++ n :: xs.reverse)).Nodup := by
    rw [← hrev, nodup_cons, mem_reverse, nodup_reverse, ← nodup_cons]
    exact hc.nodup
  refine ⟨hc.forth.unlink hc.nodup, ?_, ?_⟩
  · rw [reverse_append, ← getLastD_reverse ys, ← headD_reverse xs]
    exact hback.unlink hnodup
  · refine hc.nodup.sublist (List.Sublist.cons_cons h ?_)
    simp

end Circle

end Circles
