import Arbor.Proofs.Session.Operations
import Arbor.Proofs.Shape.Grid
import Arbor.Proofs.Space.Placement
import Arbor.Proofs.Space.Rotation
import Arbor.Recipe.Document

/-!
# Placements of leaves

The placements that a session hands out are sixteen numbers for each leaf, column after column.
With finite data there is no more rounding in them than in the products of the axes and the scale:
the fourth column is the position of the leaf, and the bottom row is `0, 0, 0, 1`
(`Transform.placedEntries`, `leafPlacements_exact`).
-/

namespace Arbor

open Number

/-- One of the lists of one length that are put together. -/
lemma take_drop_flatMap {α β : Type} {f : α → List β} {xs : List α} {n i : Nat} {x : α}
    (h : ∀ x ∈ xs, (f x).length = n) (hx : xs[i]? = some x) :
    ((xs.flatMap f).drop (n * i)).take n = f x := by
  refine List.ext_getElem? fun r => ?_
  by_cases hr : r < n
  · rw [List.getElem?_take_of_lt hr, List.getElem?_drop, Nat.mul_comm,
      getElem?_flatMap_of_length h hr, hx, Option.bind_some]
  · have hlength := h x (List.mem_of_getElem? hx)
    rw [List.getElem?_take_eq_none (by omega), List.getElem?_eq_none (by omega)]

/-- The sixteen numbers of a placement, column after column: the axes, each coordinate multiplied by
the scale and rounded once, and the position, above a bottom row of `0, 0, 0, 1`. -/
def Transform.placedEntries (position : Vec3) (f : Frame) (s : Float32) : List Float32 :=
  [f.right.x * s, f.right.y * s, f.right.z * s, 0,
    f.up.x * s, f.up.y * s, f.up.z * s, 0,
    f.forward.x * s, f.forward.y * s, f.forward.z * s, 0,
    position.x, position.y, position.z, 1]

namespace Session

/-- The placement of a leaf within those of all leaves. -/
lemma take_drop_leafPlacements {s : Session} {tree : Tree} (hs : s.tree = some tree) {i : Nat}
    {l : LeafInstance} (hl : tree.geometry.leaves[i]? = some l) :
    (s.leafPlacements.drop (16 * i)).take 16 = l.placement.toList := by
  rw [leafPlacements, hs]
  exact take_drop_flatMap (f := fun l : LeafInstance => l.placement.toList) (fun _ _ => rfl) hl

/-- **Placements are exact.**  With finite data there is no more rounding in a placement than one
for each coordinate of an axis; a transform with finite columns above the same bottom row takes the
origin to its last column, with no rounding; and in the buffer of a session the sixteen numbers of a
leaf with finite data are those of its placement.  The sign of a zero does not count. -/
theorem leafPlacements_exact :
    (∀ (t : Vec3) (f : Frame) (s : Float32), t.isFinite → f.isFinite → s.isFinite →
      List.Forall₂ (fun x y => x == y) (Transform.place t f s).toList
        (Transform.placedEntries t f s)) ∧
    (∀ a b c t : Vec3, a.isFinite → b.isFinite → c.isFinite → t.isFinite →
      ((Transform.affine a b c t).point .zero).x == t.x ∧
        ((Transform.affine a b c t).point .zero).y == t.y ∧
        ((Transform.affine a b c t).point .zero).z == t.z) ∧
    ∀ (session : Session) (tree : Tree) (i : Nat) (l : LeafInstance),
      session.tree = some tree → tree.geometry.leaves[i]? = some l → l.position.isFinite →
      l.rotation.isFinite → l.scale.isFinite →
      List.Forall₂ (fun x y => x == y) ((session.leafPlacements.drop (16 * i)).take 16)
        (Transform.placedEntries l.position l.rotation l.scale) := by
  have hplace : ∀ {t : Vec3} {f : Frame} {s : Float32}, t.isFinite → f.isFinite → s.isFinite →
      (Transform.place t f s).Equals
        (.affine (f.right.scale s) (f.up.scale s) (f.forward.scale s) t) := fun ht hf hs => by
    obtain ⟨hright, hup, hforward⟩ := Frame.isFinite_eq_true_iff.mp hf
    exact Transform.place_equals (Vec3.isFinite_eq_true_iff.mp ht) hright hup hforward
      (isFinite_iff.mp hs)
  refine ⟨fun t f s ht hf hs => (hplace ht hf hs).toList, fun a b c t ha hb hc ht => ?_,
    fun session tree i l htree hl hposition hrotation hscale => ?_⟩
  · rw [Vec3.isFinite_eq_true_iff] at ha hb hc ht
    exact Transform.point_zero (Transform.finite_affine ha hb hc ht)
  · rw [take_drop_leafPlacements htree hl]
    exact (hplace hposition hrotation hscale).toList

/-- The leaf at the end of a side shoot. -/
theorem leafPlacements_exact_forked : ∃ s tree l, Reachable Recipe.ofDocument s ∧
    s.tree = some tree ∧ tree.geometry.leaves[0]? = some l ∧
    l.position.isFinite ∧ l.rotation.isFinite ∧ l.scale.isFinite ∧
    List.Forall₂ (fun x y => x == y) (Transform.place l.position l.rotation l.scale).toList
      (Transform.placedEntries l.position l.rotation l.scale) ∧
    ((Transform.affine l.rotation.right l.rotation.up l.rotation.forward l.position).point
      .zero).x == l.position.x ∧
    List.Forall₂ (fun x y => x == y) ((s.leafPlacements.drop (16 * 0)).take 16)
      (Transform.placedEntries l.position l.rotation l.scale) := by
  let ops : List Operation := [.setAxiom "F[+F]", .setRules "", .setIterations 0, .grow]
  let s := run Recipe.ofDocument ops
  have hgrown : ∃ l, (s.tree.bind fun t => t.geometry.leaves[0]?) = some l ∧
      l.position.isFinite ∧ l.rotation.isFinite ∧ l.scale.isFinite := by
    have hleaf : (s.tree.bind fun t => t.geometry.leaves[0]?).any (fun l =>
        l.position.isFinite && l.rotation.isFinite && l.scale.isFinite) = true := by
      decide +kernel
    simpa only [Option.any_eq_true, Bool.and_eq_true, and_assoc] using hleaf
  obtain ⟨l, hl, hposition, hrotation, hscale⟩ := hgrown
  obtain ⟨tree, htree, hleaf⟩ := Option.bind_eq_some_iff.mp hl
  obtain ⟨hright, hup, hforward⟩ : l.rotation.right.isFinite ∧ l.rotation.up.isFinite ∧
      l.rotation.forward.isFinite := by
    simpa only [Frame.isFinite, Bool.and_eq_true, and_assoc] using hrotation
  obtain ⟨hplace, horigin, hsession⟩ := leafPlacements_exact
  exact ⟨s, tree, l, ⟨ops, rfl⟩, htree, hleaf, hposition, hrotation, hscale,
    hplace _ _ _ hposition hrotation hscale,
    (horigin _ _ _ _ hright hup hforward hposition).1,
    hsession s tree 0 l htree hleaf hposition hrotation hscale⟩

end Session

end Arbor
