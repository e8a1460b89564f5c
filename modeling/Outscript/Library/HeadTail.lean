import Outscript.Library.ByteString

/-!
# Heads and tails

Values written as a row of words of one width: a short value in its word, a
long one behind the row, where its word points. A builder that leaves the
pointers open, and closes each when it appends what it points to, writes this
layout; a reader that follows the pointers finds every value.
-/
namespace HeadTail

open ByteString

inductive Item (w : ℕ) where
  | inline (word : ByteVec w)
  | pointed (tail : Bytes)

namespace Item

variable {w : ℕ}

def tail : Item w → Bytes
  | .inline _ => []
  | .pointed tail => tail

/-- The word of an item whose tail is at `off`. -/
def head (ptr : ℕ → ByteVec w) (off : ℕ) : Item w → Bytes
  | .inline word => word.toList
  | .pointed _ => (ptr off).toList

/-- The word before its pointer is known. -/
def hole : Item w → Bytes
  | .inline word => word.toList
  | .pointed _ => List.replicate w 0

@[simp] theorem length_head (ptr : ℕ → ByteVec w) (off : ℕ) (item : Item w) :
    (item.head ptr off).length = w := by
  cases item <;> simp [head]

@[simp] theorem length_hole (item : Item w) : item.hole.length = w := by
  cases item <;> simp [hole]

end Item

variable {w : ℕ} (ptr : ℕ → ByteVec w)

/-! ## The layout -/

/-- The words of items whose tails start at `off`. -/
def heads (off : ℕ) : List (Item w) → Bytes
  | [] => []
  | item :: items => item.head ptr off ++ heads (off + item.tail.length) items

def tails (items : List (Item w)) : Bytes := items.flatMap Item.tail

/-- The words follow the seed, the tails follow the words. -/
def layout (seed : Bytes) (items : List (Item w)) : Bytes :=
  seed ++ (heads ptr (seed.length + w * items.length) items ++ tails items)

/-- Where the tail of an item is. -/
def offset (seed : Bytes) (items : List (Item w)) (i : ℕ) : ℕ :=
  seed.length + w * items.length + (tails (items.take i)).length

theorem length_heads (off : ℕ) (items : List (Item w)) :
    (heads ptr off items).length = w * items.length := by
  induction items generalizing off with
  | nil => rfl
  | cons item items ih =>
    rw [heads, List.length_append, Item.length_head, ih, List.length_cons, Nat.mul_succ]
    omega

theorem length_layout (seed : Bytes) (items : List (Item w)) :
    (layout ptr seed items).length =
      seed.length + w * items.length + (tails items).length := by
  rw [layout, List.length_append, List.length_append, length_heads]
  omega

/-- Pointers agree as far as the layout reaches. -/
theorem heads_congr {ptr ptr' : ℕ → ByteVec w} {off bound : ℕ} {items : List (Item w)}
    (hptr : ∀ n ≤ bound, ptr n = ptr' n) (h : off + (tails items).length ≤ bound) :
    heads ptr off items = heads ptr' off items := by
  induction items generalizing off with
  | nil => rfl
  | cons item items ih =>
    have hlen : (tails (item :: items)).length = item.tail.length + (tails items).length := by
      rw [tails, List.flatMap_cons, List.length_append, ← tails]
    rw [hlen] at h
    rw [heads, heads, ih (by omega)]
    cases item with
    | inline word => rfl
    | pointed tail => rw [Item.head, Item.head, hptr off (by omega)]

theorem layout_congr {ptr ptr' : ℕ → ByteVec w} {seed : Bytes} {items : List (Item w)}
    (hptr : ∀ n ≤ (layout ptr seed items).length, ptr n = ptr' n) :
    layout ptr seed items = layout ptr' seed items := by
  rw [length_layout] at hptr
  rw [layout, layout, heads_congr hptr le_rfl]

/-! ## Building -/

/-- The words with the pointers open. -/
def holes (items : List (Item w)) : Bytes := items.flatMap Item.hole

/-- The open pointers, from a position on, each with what it will point to. -/
def patches (pos : ℕ) : List (Item w) → List (ℕ × Bytes)
  | [] => []
  | .inline _ :: items => patches (pos + w) items
  | .pointed tail :: items => (pos, tail) :: patches (pos + w) items

/-- Closes a pointer at the end of the buffer and appends its tail. -/
def patch (res : Bytes) (p : ℕ × Bytes) : Bytes :=
  res.take p.1 ++ ((ptr res.length).toList ++ res.drop (p.1 + w)) ++ p.2

theorem length_holes (items : List (Item w)) : (holes items).length = w * items.length := by
  induction items with
  | nil => rfl
  | cons item items ih =>
    rw [holes, List.flatMap_cons, List.length_append, Item.length_hole, ← holes, ih,
      List.length_cons, Nat.mul_succ]
    omega

theorem holes_append (items items' : List (Item w)) :
    holes (items ++ items') = holes items ++ holes items' := List.flatMap_append

theorem patches_append (pos : ℕ) (items items' : List (Item w)) :
    patches pos (items ++ items') =
      patches pos items ++ patches (pos + w * items.length) items' := by
  induction items generalizing pos with
  | nil => rfl
  | cons item items ih =>
    have hpos : pos + w + w * items.length = pos + w * (items.length + 1) := by
      rw [Nat.mul_succ]
      omega
    cases item with
    | inline word => rw [List.cons_append, patches, patches, ih, hpos, List.length_cons]
    | pointed tail =>
      rw [List.cons_append, patches, patches, ih, hpos, List.length_cons, List.cons_append]

/-- A pointer between a closed front and the open words. -/
theorem patch_hole (pre post tail : Bytes) :
    patch ptr (pre ++ (List.replicate w 0 ++ post)) (pre.length, tail) =
      pre ++ ((ptr (pre.length + w + post.length)).toList ++ post) ++ tail := by
  have hlen : (pre ++ (List.replicate w (0 : UInt8) ++ post)).length =
      pre.length + w + post.length := by
    rw [List.length_append, List.length_append, List.length_replicate]
    omega
  have hdrop : (pre ++ (List.replicate w (0 : UInt8) ++ post)).drop (pre.length + w) = post := by
    rw [← List.drop_drop, List.drop_left]
    exact List.drop_left' List.length_replicate
  rw [patch, hlen, hdrop, List.take_left]

/-- The pointers are closed in order; those already closed and the tails already
appended stay. -/
theorem foldl_patch (pre done : Bytes) (items : List (Item w)) :
    (patches pre.length items).foldl (patch ptr) (pre ++ (holes items ++ done)) =
      pre ++ (heads ptr (pre.length + w * items.length + done.length) items ++
        (done ++ tails items)) := by
  induction items generalizing pre done with
  | nil => simp [patches, holes, heads, tails]
  | cons item items ih =>
    cases item with
    | inline word =>
      have hlen : (pre ++ word.toList).length = pre.length + w := by simp
      have hrest := ih (pre ++ word.toList) done
      rw [hlen] at hrest
      have hoff : pre.length + w + w * items.length = pre.length + w * (items.length + 1) := by
        rw [Nat.mul_succ]
        omega
      rw [hoff] at hrest
      simpa [patches, holes, heads, tails, Item.hole, Item.head, Item.tail] using hrest
    | pointed tail =>
      have hstart : pre ++ (holes (.pointed tail :: items) ++ done) =
          pre ++ (List.replicate w 0 ++ (holes items ++ done)) := by
        rw [holes, List.flatMap_cons, ← holes, Item.hole, List.append_assoc]
      have hoff : pre.length + w + (holes items ++ done).length =
          pre.length + w * (items.length + 1) + done.length := by
        rw [List.length_append, length_holes, Nat.mul_succ]
        omega
      have hword : ∀ off, (pre ++ (ptr off).toList).length = pre.length + w := by simp
      have hrest := ih (pre ++ (ptr (pre.length + w * (items.length + 1) + done.length)).toList)
        (done ++ tail)
      rw [hword] at hrest
      have hnext : pre.length + w + w * items.length + (done ++ tail).length =
          pre.length + w * (items.length + 1) + done.length + tail.length := by
        rw [List.length_append, Nat.mul_succ]
        omega
      rw [hnext] at hrest
      rw [patches, List.foldl_cons, hstart, patch_hole, hoff]
      simpa [heads, tails, Item.head, Item.tail] using hrest

/-- Building gives the layout. -/
theorem foldl_patch_eq_layout (seed : Bytes) (items : List (Item w)) :
    (patches seed.length items).foldl (patch ptr) (seed ++ holes items) =
      layout ptr seed items := by
  have h := foldl_patch ptr seed [] items
  simpa [layout] using h

/-! ## Reading -/

/-- `n` bytes from a position. -/
def slice (out : Bytes) (pos n : ℕ) : Bytes := (out.drop pos).take n

theorem slice_append (pre v post : Bytes) : slice (pre ++ (v ++ post)) pre.length v.length = v := by
  rw [slice, List.drop_left, List.take_left]

/-- The word of an item. -/
theorem slice_head {items : List (Item w)} {item : Item w} (seed : Bytes) {i : ℕ}
    (h : items[i]? = some item) :
    slice (layout ptr seed items) (seed.length + w * i) w =
      item.head ptr (offset seed items i) := by
  have hword : ∀ (items : List (Item w)) (pre post : Bytes) (off i : ℕ),
      items[i]? = some item →
      slice (pre ++ (heads ptr off items ++ post)) (pre.length + w * i) w =
        item.head ptr (off + (tails (items.take i)).length) := by
    intro items
    induction items with
    | nil =>
      intro pre post off i h
      cases h
    | cons first items ih =>
      intro pre post off i h
      cases i with
      | zero =>
        obtain rfl : first = item := by simpa using h
        have hslice := slice_append pre (first.head ptr off)
          (heads ptr (off + first.tail.length) items ++ post)
        rw [Item.length_head] at hslice
        simpa [heads, tails] using hslice
      | succ i =>
        have hrest := ih (pre ++ first.head ptr off) post (off + first.tail.length) i
          (by simpa using h)
        have hpos : (pre ++ first.head ptr off).length + w * i = pre.length + w * (i + 1) := by
          rw [List.length_append, Item.length_head, Nat.mul_succ]
          omega
        rw [hpos] at hrest
        rw [heads]
        simpa [tails, Nat.add_assoc] using hrest
  exact hword items seed (tails items) _ i h

/-- The tail of an item, where its word points. -/
theorem slice_tail {items : List (Item w)} {item : Item w} (seed : Bytes) {i : ℕ}
    (h : items[i]? = some item) :
    slice (layout ptr seed items) (offset seed items i) item.tail.length = item.tail ∧
      offset seed items i + item.tail.length ≤ (layout ptr seed items).length := by
  obtain ⟨hi, hget⟩ := List.getElem?_eq_some_iff.mp h
  have hsplit : tails items =
      tails (items.take i) ++ (item.tail ++ tails (items.drop (i + 1))) := by
    have hitems : items = items.take i ++ (item :: items.drop (i + 1)) := by
      rw [← hget, List.cons_getElem_drop_succ, List.take_append_drop]
    conv_lhs => rw [hitems]
    simp [tails]
  have hlayout : layout ptr seed items =
      (seed ++ (heads ptr (seed.length + w * items.length) items ++ tails (items.take i))) ++
        (item.tail ++ tails (items.drop (i + 1))) := by
    rw [layout, hsplit]
    simp only [List.append_assoc]
  have hpre : (seed ++ (heads ptr (seed.length + w * items.length) items ++
      tails (items.take i))).length = offset seed items i := by
    rw [List.length_append, List.length_append, length_heads, offset]
    omega
  constructor
  · rw [hlayout, ← hpre]
    exact slice_append _ _ _
  · rw [length_layout, hsplit, offset, List.length_append, List.length_append]
    omega

end HeadTail
