import DeviceModel.Proofs.Expansion.Coverage
import DeviceModel.Proofs.Expansion.ViewTrees

/-!
Leaves in the frames of multiplexers. Main statements: leaves are packed in their order, without a gap, and
into a new chunk only where the last one cannot take them (`packed_packFrames`); so the signals of a
multiplexer that has been built lie in its frame and do not overlap (`Settled.framed`).
-/

namespace DeviceModel

namespace Family

/-! ### Chunks -/

/-- Leaves of the given widths lie one below the other without a gap, from the bit `top` downwards. -/
def Stacked (width : Nat → Int) : Int → List Placed → Prop
  | _, [] => True
  | top, p :: ps => p.position + width p.index = top ∧ Stacked width p.position ps

/-- The bits that a chunk takes. -/
def load (width : Nat → Int) (c : List Placed) : Int := (c.map fun p => width p.index).sum

/-- The leaves `0` to `n - 1` in chunks: in their order, none lost, each chunk stacked from the end of the
payload and within it, and a chunk only begun with a leaf that the one before cannot take. -/
structure Packed (width : Nat → Int) (n : Nat) (chunks : List (List Placed)) : Prop where
  indices : chunks.flatten.map Placed.index = List.range n
  nonempty : ∀ c ∈ chunks, c ≠ []
  stacked : ∀ c ∈ chunks, Stacked width payloadEnd c
  load_le : ∀ c ∈ chunks, load width c ≤ payloadBits
  tight : chunks.IsChain fun c d => ∀ p ∈ d.head?, payloadBits < load width c + width p.index

section

variable {width : Nat → Int}

theorem stacked_append {top : Int} {c : List Placed} {p : Placed} (hc : Stacked width top c)
    (hp : p.position + width p.index = top - load width c) : Stacked width top (c ++ [p]) := by
  induction c generalizing top with
  | nil => simpa [Stacked, load] using hp
  | cons q c ih =>
    refine ⟨hc.1, ih hc.2 ?_⟩
    have := hc.1
    simp only [load, List.map_cons, List.sum_cons] at hp ⊢
    omega

theorem load_append (c : List Placed) (p : Placed) :
    load width (c ++ [p]) = load width c + width p.index := by
  simp [load]

theorem load_nonneg {c : List Placed} (hw : ∀ p ∈ c, 0 ≤ width p.index) : 0 ≤ load width c :=
  List.sum_nonneg fun _ h => by
    obtain ⟨p, hp, rfl⟩ := List.mem_map.1 h
    exact hw p hp

/-- What is stacked lies between the top and the bit that is reached. -/
theorem Stacked.bounds {top : Int} {c : List Placed} (h : Stacked width top c)
    (hw : ∀ p ∈ c, 0 ≤ width p.index) :
    ∀ p ∈ c, top - load width c ≤ p.position ∧ p.position + width p.index ≤ top := by
  induction c generalizing top with
  | nil => simp
  | cons q c ih =>
    obtain ⟨hq, hc⟩ := List.forall_mem_cons.1 hw
    have hload := load_nonneg hc
    have htop := h.1
    have hcons : load width (q :: c) = width q.index + load width c := by simp [load]
    refine List.forall_mem_cons.2 ⟨by omega, fun p hp => ?_⟩
    have := ih h.2 hc p hp
    omega

/-- What is stacked later lies below. -/
theorem Stacked.pairwise {top : Int} {c : List Placed} (h : Stacked width top c)
    (hw : ∀ p ∈ c, 0 ≤ width p.index) :
    c.Pairwise fun p q => q.position + width q.index ≤ p.position := by
  induction c generalizing top with
  | nil => exact .nil
  | cons q c ih =>
    obtain ⟨-, hc⟩ := List.forall_mem_cons.1 hw
    exact .cons (fun p hp => (h.2.bounds hc p hp).2) (ih h.2 hc)

/-! ### Packing -/

theorem addLast_append (p : Placed) (cs : List (List Placed)) (c : List Placed) :
    addLast p (cs ++ [c]) = cs ++ [c ++ [p]] := by
  induction cs with
  | nil => rfl
  | cons d cs ih =>
    cases cs with
    | nil => rfl
    | cons e cs => exact congrArg (d :: ·) ih

variable {n : Nat} {cs : List (List Placed)} {c : List Placed}

/-- A leaf that the last chunk takes. -/
theorem Packed.extend (h : Packed width n (cs ++ [c]))
    (hfits : load width c + width n ≤ payloadBits) :
    Packed width (n + 1) (cs ++ [c ++ [⟨n, payloadEnd - (load width c + width n)⟩]]) := by
  obtain ⟨hcs, hc⟩ := List.forall_mem_append.1 h.stacked
  obtain ⟨hload, -⟩ := List.forall_mem_append.1 h.load_le
  refine ⟨?_, ?_, ?_, ?_, ?_⟩
  · have hi := h.indices
    simp only [List.flatten_append, List.flatten_singleton, List.map_append] at hi ⊢
    rw [← List.append_assoc, hi, List.range_succ]
    rfl
  · exact List.forall_mem_append.2 ⟨fun d hd => h.nonempty d (List.mem_append_left _ hd), by simp⟩
  · refine List.forall_mem_append.2 ⟨hcs, List.forall_mem_singleton.2 ?_⟩
    exact stacked_append (hc c (List.mem_singleton_self c)) (by simp only; omega)
  · refine List.forall_mem_append.2 ⟨hload, List.forall_mem_singleton.2 ?_⟩
    rw [load_append]
    exact hfits
  · obtain ⟨hchain, -, hlast⟩ := List.isChain_append.1 h.tight
    refine List.isChain_append.2 ⟨hchain, .singleton _, fun d hd e he => ?_⟩
    obtain rfl : c ++ [_] = e := by simpa using he
    rw [List.head?_append_of_ne_nil _ (h.nonempty c (by simp))]
    exact hlast d hd c (by simp)

/-- A leaf that the last chunk cannot take. -/
theorem Packed.overflow (h : Packed width n (cs ++ [c])) (hwidth : width n ≤ payloadBits)
    (hfull : payloadBits < load width c + width n) :
    Packed width (n + 1) ((cs ++ [c]) ++ [[⟨n, payloadEnd - width n⟩]]) := by
  refine ⟨?_, ?_, ?_, ?_, ?_⟩
  · rw [List.flatten_append, List.map_append, h.indices, List.range_succ]
    rfl
  · exact List.forall_mem_append.2 ⟨h.nonempty, by simp⟩
  · exact List.forall_mem_append.2 ⟨h.stacked, by simp [Stacked]⟩
  · exact List.forall_mem_append.2 ⟨h.load_le, by simpa [load] using hwidth⟩
  · refine List.isChain_append.2 ⟨h.tight, .singleton _, fun d hd e he p hp => ?_⟩
    obtain rfl : c = d := by simpa using hd
    obtain rfl : [⟨n, payloadEnd - width n⟩] = e := by simpa using he
    obtain rfl : ⟨n, payloadEnd - width n⟩ = p := by simpa using hp
    exact hfull

theorem packed_one (hwidth : width 0 ≤ payloadBits) :
    Packed width 1 [[⟨0, payloadEnd - width 0⟩]] where
  indices := rfl
  nonempty := by simp
  stacked := by simp [Stacked]
  load_le := by simpa [load] using hwidth
  tight := .singleton _

/-- Leaves are packed one after the other, each into the last chunk or a new one. -/
theorem packed_packBits (hw : ∀ i, width i ≤ payloadBits) (m : Nat)
    (h : Packed width n (cs ++ [c])) :
    Packed width (n + m) (packBits (cs ++ [c]) (load width c) n ((List.range' n m).map width)) := by
  induction m generalizing n cs c with
  | zero => exact h
  | succ m ih =>
    rw [List.range'_succ, List.map_cons, packBits, Nat.add_succ, ← Nat.succ_add]
    split
    · rename_i hfull
      have hnext := ih (h.overflow (hw n) hfull)
      rwa [show load width [⟨n, payloadEnd - width n⟩] = width n by simp [load],
        ← List.nil_append [(⟨n, _⟩ : Placed)], ← addLast_append] at hnext
    · rename_i hfits
      have hnext := ih (h.extend (not_lt.1 hfits))
      rwa [load_append, ← addLast_append] at hnext

/-- The bits of a leaf in its chunk. -/
def span (width : Nat → Int) (p : Placed) : Set Int :=
  Set.Ico p.position (p.position + width p.index)

/-- No bit is taken twice, and none outside the payload. -/
structure Apart (width : Nat → Int) (chunks : List (List Placed)) : Prop where
  inside : ∀ c ∈ chunks, ∀ p ∈ c, 16 ≤ p.position ∧ p.position + width p.index ≤ 64
  disjoint : ∀ c ∈ chunks, c.Pairwise fun p q => Disjoint (span width p) (span width q)

theorem disjoint_of_le {a b c d : Int} (h : d ≤ a) : Disjoint (Set.Ico a b) (Set.Ico c d) :=
  Set.disjoint_left.2 fun _ hab hcd => absurd (h.trans hab.1) (not_le.2 hcd.2)

theorem Packed.apart (hw : ∀ i, 0 ≤ width i) {chunks : List (List Placed)} (h : Packed width n chunks) :
    Apart width chunks where
  inside := fun c hc p hp => by
    have hload := h.load_le c hc
    have hbounds := (h.stacked c hc).bounds (fun q _ => hw q.index) p hp
    simp only [payloadBits, payloadEnd] at hload hbounds
    omega
  disjoint := fun c hc => ((h.stacked c hc).pairwise fun q _ => hw q.index).imp disjoint_of_le

end

/-- The width of each of some leaves. -/
def widths (ds : List Data) (i : Nat) : Int := (ds.map (·.int .bits)).getD i 0

theorem map_widths (ds : List Data) :
    (List.range' 0 ds.length).map (widths ds) = ds.map (·.int .bits) := by
  refine List.ext_getElem (by simp) fun i hi _ => ?_
  simp only [List.length_map, List.length_range'] at hi
  simp [widths, hi]

theorem widths_mem {ds : List Data} (P : Int → Prop) (h : ∀ d ∈ ds, P (d.int .bits)) (hz : P 0) (i : Nat) :
    P (widths ds i) := by
  rw [widths, List.getD_eq_getElem?_getD]
  cases hi : (ds.map (·.int .bits))[i]? with
  | none => exact hz
  | some w =>
    obtain ⟨d, hd, rfl⟩ := List.mem_map.1 (List.mem_of_getElem? hi)
    exact h d hd

/-- Leaves that can be placed are packed without a gap and without an overlap. -/
theorem packed_packFrames {ds : List Data} (h : ∀ d ∈ ds, 1 ≤ d.int .bits ∧ d.int .bits ≤ 48) :
    Packed (widths ds) ds.length (packFrames ds) ∧ Apart (widths ds) (packFrames ds) := by
  have hfits : ∀ i, widths ds i ≤ payloadBits := widths_mem (· ≤ payloadBits) (fun d hd => (h d hd).2) (by decide)
  have hpos : ∀ i, 0 ≤ widths ds i := widths_mem (0 ≤ ·) (fun d hd => by have := h d hd; omega) (le_refl 0)
  have hpacked : Packed (widths ds) ds.length (packFrames ds) := by
    rw [packFrames, ← map_widths]
    cases ds with
    | nil => exact ⟨rfl, nofun, nofun, nofun, .nil⟩
    | cons d ds =>
      have hw : 0 < widths (d :: ds) 0 := (h d List.mem_cons_self).1
      rw [List.length_cons, List.range'_succ, List.map_cons, packBits, if_pos (by omega), Nat.add_comm]
      have hone : Packed (widths (d :: ds)) 1 ([] ++ [[⟨0, payloadEnd - widths (d :: ds) 0⟩]]) :=
        packed_one (hfits 0)
      have hnext := packed_packBits hfits ds.length hone
      rwa [show load (widths (d :: ds)) [⟨0, payloadEnd - widths (d :: ds) 0⟩] = widths (d :: ds) 0 by
        simp [load]] at hnext
  exact ⟨hpacked, hpacked.apart hpos⟩

end Family

/-- The bits of its frame that a signal takes. -/
def Node.span (n : Node) : Set Int := Set.Ico (n.int .startBit) (n.int .startBit + n.int .bits)

/-- A multiplexer of 8 bytes with its signals behind the first two, each in bits of its own. -/
structure Framed (m : Node) : Prop where
  length : m.int .length = 8
  inside : ∀ s ∈ m.children, 0 < s.int .bits ∧ 16 ≤ s.int .startBit ∧ s.int .startBit + s.int .bits ≤ 64
  disjoint : m.children.Pairwise fun s s' => Disjoint s.span s'.span

namespace ViewExpansion

open Family

variable {leaves : List (Leaf × Data)}

/-- A signal in the place of a leaf. -/
theorem PointStands.placed {n : Node} {p : Point} (h : PointStands .can n p) :
    n.int .startBit = p.position ∧ n.int .bits = p.seed.int .bits := by
  have hd := h.data
  rw [unplaced_can (.inl h.kind)] at hd
  have hk : p.seed.kind = .signal := by
    rw [← lawful_can.kind_leafData p.leaf p.seed p.position, ← hd]
    exact h.kind
  constructor
  · rw [Node.int, Data.int, Data.int?, hd]
    simp only [can]
    rw [Data.get?_put_of_ne (by decide), Data.get?_put (f := .integer .startBit) (by simp [hk]; rfl) rfl]
    rfl
  · rw [Node.int, Data.int, Data.int, Data.int?, Data.int?, hd,
      get?_leafData (k := .can) rfl _ _ _ (by decide)]

theorem mem_blocksFrom {g : LeafGroup} {i : Nat} {cs : List (List Placed)} {b : Block}
    (h : b ∈ blocksFrom g leaves i cs) : ∃ c ∈ cs, b.points = pointsOf leaves c := by
  induction cs generalizing i with
  | nil => cases h
  | cons c cs ih =>
    rcases List.mem_cons.1 h with rfl | h
    · exact ⟨c, List.mem_cons_self, rfl⟩
    · obtain ⟨d, hd, hb⟩ := ih h
      exact ⟨d, List.mem_cons_of_mem _ hd, hb⟩

/-- The points of a chunk whose leaves there are. -/
theorem forall₂_pointsOf {c : List Placed} (hc : ∀ p ∈ c, p.index < leaves.length) :
    List.Forall₂ (fun (q : Point) p => q.position = p.position ∧
      q.seed.int .bits = widths (leaves.map (·.2)) p.index) (pointsOf leaves c) c := by
  induction c with
  | nil => exact .nil
  | cons p c ih =>
    obtain ⟨hp, hc⟩ := List.forall_mem_cons.1 hc
    rw [pointsOf, List.filterMap_cons_some (by rw [List.getElem?_eq_getElem hp]; rfl)]
    exact .cons ⟨rfl, by simp [widths, hp]⟩ (ih hc)

/-- A multiplexer whose leaves have been packed into one chunk. -/
theorem BlockStands.framed {n : Node} {b : Block} (h : BlockStands .can n b) {cs : List (List Placed)}
    (hcs : Packed (widths (leaves.map (·.2))) leaves.length cs ∧ Apart (widths (leaves.map (·.2))) cs)
    (hw : ∀ x ∈ leaves, 0 < x.2.int .bits) {c : List Placed} (hc : c ∈ cs) (hb : b.points = pointsOf leaves c) :
    Framed n := by
  have hindex : ∀ p ∈ c, p.index < leaves.length := by
    intro p hp
    rw [← List.mem_range, ← hcs.1.indices]
    exact List.mem_map_of_mem (List.mem_flatten.2 ⟨c, hc, hp⟩)
  have hpoints : List.Forall₂ (fun s p => s.int .startBit = p.position ∧
      s.int .bits = widths (leaves.map (·.2)) p.index) n.children c :=
    (forall₂_comp (h.points.imp fun _ _ => PointStands.placed) (hb ▸ forall₂_pointsOf hindex)).imp
      fun s p ⟨q, hs, hq⟩ => ⟨hs.1.trans hq.1, hs.2.trans hq.2⟩
  have hspans : c.map (span (widths (leaves.map (·.2)))) = n.children.map Node.span :=
    map_eq_of_forall₂ hpoints fun s p hs => by rw [Node.span, span, hs.1, hs.2]
  have hlength : n.int .length = multiplexerLength := by
    have hd := h.data
    rw [ViewExpansion.unplaced_can (.inr h.kind), groupData_can] at hd
    rw [Node.int, Data.int, Data.int?, ← hd, Data.get?_of (f := .integer .length) (nodup_multiplexerAttrs ..)
      (by simp [multiplexerAttrs]; rfl) rfl rfl]
    rfl
  refine ⟨hlength, fun s hs => ?_, ?_⟩
  · obtain ⟨p, hp, hstart, hbits⟩ := exists_of_forall₂ hpoints hs
    have hwidth : 0 < widths (leaves.map (·.2)) p.index := by
      have hlt := hindex p hp
      simpa [widths, hlt] using hw _ (List.getElem_mem hlt)
    rw [hstart, hbits]
    exact ⟨hwidth, hcs.2.inside c hc p hp⟩
  · rw [← List.pairwise_map (f := Node.span) (R := Disjoint), ← hspans, List.pairwise_map]
    exact hcs.2.disjoint c hc

/-- The multiplexers of a settled view. -/
theorem Settled.framed {shape : Shape} {z : ZeroBits} {view : Node} {ns gs : List Node}
    (h : Settled .can shape z view ns gs) {n : Node} (hn : n ∈ gs) : Framed n := by
  obtain ⟨b, hb, hstands⟩ := exists_of_forall₂ h.blocks hn
  obtain ⟨g, hg, hb⟩ := List.mem_flatMap.1 hb
  have hwidth : ∀ x ∈ placeable (unplacedOf (seedData? shape.seeds ns))
      (unready .can shape (seedData? shape.seeds ns)) g, 1 ≤ x.2.int .bits ∧ x.2.int .bits ≤ 48 := by
    intro x hx
    obtain ⟨hkept, hdata⟩ := mem_placeable hx
    obtain ⟨d, hd, hxd⟩ := Option.map_eq_some_iff.1 hdata
    obtain ⟨hl, hnot⟩ := List.mem_filter.1 hkept
    have href := mem_references.2 ⟨x.1, List.mem_flatMap.2 ⟨g, hg, hl⟩, rfl⟩
    have hready : can.ready d = true := by simpa [unready, href, hd] using hnot
    have hfits := List.filter_eq_nil_iff.1 h.fits _ href
    rw [hd, Option.any_some, Bool.not_eq_true', Bool.not_eq_false] at hfits
    rw [← hxd, (Data.similar_unplaced d).int .bits (by decide) (by decide)]
    exact ⟨of_decide_eq_true hready, of_decide_eq_true hfits⟩
  have hwidths : ∀ d ∈ (placeable (unplacedOf (seedData? shape.seeds ns))
      (unready .can shape (seedData? shape.seeds ns)) g).map (·.2), 1 ≤ d.int .bits ∧ d.int .bits ≤ 48 := by
    rintro d hd
    obtain ⟨x, hx, rfl⟩ := List.mem_map.1 hd
    exact hwidth x hx
  have hpacked := packed_packFrames hwidths
  rw [List.length_map] at hpacked
  simp only [blocksOf] at hb
  split at hb
  · cases hb
  · obtain ⟨c, hc, hpoints⟩ := mem_blocksFrom hb
    exact hstands.framed hpacked (fun x hx => (hwidth x hx).1) hc hpoints

end ViewExpansion

end DeviceModel
