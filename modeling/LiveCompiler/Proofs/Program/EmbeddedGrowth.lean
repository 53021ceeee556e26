import LiveCompiler.Proofs.Program.Embedding

/-!
# Images that grow side by side

An image stays embedded in a larger one when both get an entry and the entries mirror each other
(`Embeds.push`).  When only the larger one gets an entry, a wrapper, all that is still to come moves
on by one position there (`Embeds.skip`); what was there before keeps its position, and it is only
this that bodies, links and compiled functions refer to.
-/

namespace LiveCompiler

open Ir

/-- Leave a gap of one position before what is still to come after so many functions. -/
def skipOne (rename : FuncId → FuncId) (size : Nat) (f : FuncId) : FuncId :=
  if f < size then rename f else rename f + 1

variable {rename : FuncId → FuncId} {size : Nat} {f : FuncId}

theorem skipOne_of_lt (h : f < size) : skipOne rename size f = rename f := if_pos h

theorem skipOne_of_le (h : size ≤ f) : skipOne rename size f = rename f + 1 :=
  if_neg (Nat.not_lt.mpr h)

theorem Ir.Body.Mirrors.congr {other : FuncId → FuncId} {body copy : Body}
    (h : body.Mirrors rename copy) (hSame : ∀ g ∈ calleesOf body, other g = rename g) :
    body.Mirrors other copy where
  arity_eq := h.arity_eq
  blocks_eq := by
    rw [h.blocks_eq]
    refine List.map_congr_left fun b hb => ?_
    refine congrArg (fun instrs => { b with instrs := instrs }) (List.map_congr_left fun i hi => ?_)
    cases i with
    | call dst callee args =>
      have hMem : callee ∈ calleesOf body := mem_calleesOf.mpr ⟨b, hb, dst, args, hi⟩
      simp only [Instr.mapCallee, hSame callee hMem]
    | _ => rfl
  entry_eq := h.entry_eq
  regCount_eq := h.regCount_eq
  slots_eq := h.slots_eq

theorem Entry.Mirrors.congr {other : FuncId → FuncId} {entry copy : Entry}
    (h : entry.Mirrors rename copy)
    (hSame : ∀ body, entry.body = some body → ∀ g ∈ calleesOf body, other g = rename g) :
    entry.Mirrors other copy where
  arity_eq := h.arity_eq
  kind_eq := h.kind_eq
  name_eq := h.name_eq
  body := by
    have hRel := h.body
    generalize hBody : entry.body = body at hRel
    generalize copy.body = copyBody at hRel
    cases hRel with
    | none => exact .none
    | some hBodies => exact .some (hBodies.congr (hSame _ hBody))

namespace Image

variable {image whole : Image} {entry copy : Entry}

theorem Embeds.next_eq (h : image.Embeds rename whole) : rename image.next = whole.next :=
  h.beyond 0

theorem embeds_empty : empty.Embeds id empty where
  mono := strictMono_id
  beyond _ := rfl
  entry hGet := by cases hGet
  extra hGet := by cases hGet

/-- Both images get an entry. -/
theorem Embeds.push (h : image.Embeds rename whole) (hMirrors : entry.Mirrors rename copy) :
    (image.push entry).Embeds rename (whole.push copy) where
  mono := h.mono
  beyond more := by
    rw [size_push, size_push, Nat.add_assoc, h.beyond, Nat.add_assoc]
  entry := by
    intro f found hGet
    rcases get?_push_cases hGet with hOld | ⟨rfl, rfl⟩
    · obtain ⟨other, hOther, hSame⟩ := h.entry hOld
      exact ⟨other, get?_push_of_some hOther copy, hSame⟩
    · refine ⟨copy, ?_, hMirrors⟩
      rw [h.next_eq, get?_push_next]
  extra := by
    intro g found hGet hKind
    rcases get?_push_cases hGet with hOld | ⟨rfl, -⟩
    · exact h.extra hOld hKind
    · exact ⟨image.next, h.next_eq⟩

/-- Only the larger image gets an entry, a wrapper. -/
theorem Embeds.skip (h : image.Embeds rename whole) (hSound : image.Sound)
    (hKind : copy.kind = .wrapper) :
    image.Embeds (skipOne rename image.size) (whole.push copy) where
  mono := by
    intro f g hLt
    have hMono : rename f < rename g := h.mono hLt
    rcases Nat.lt_or_ge g image.size with hIn | hOut
    · rw [skipOne_of_lt hIn, skipOne_of_lt (Nat.lt_trans hLt hIn)]
      exact hMono
    · rw [skipOne_of_le hOut]
      refine Nat.lt_of_le_of_lt ?_ (Nat.succ_lt_succ hMono)
      unfold skipOne
      split
      · exact Nat.le_succ _
      · exact Nat.le_refl _
  beyond more := by
    rw [skipOne_of_le (Nat.le_add_right _ more), h.beyond, size_push, Nat.add_right_comm]
  entry := by
    intro f found hGet
    obtain ⟨other, hOther, hMirrors⟩ := h.entry hGet
    -- A body calls only what is in the image, and that keeps its position.
    rw [skipOne_of_lt (lt_size_of_get? hGet)]
    refine ⟨other, get?_push_of_some hOther copy, hMirrors.congr fun body hBody g hMem => ?_⟩
    obtain ⟨target, hTarget⟩ := hSound.closed hGet hBody g hMem
    exact skipOne_of_lt (lt_size_of_get? hTarget)
  extra := by
    intro g found hGet hFound
    rcases get?_push_cases hGet with hOld | ⟨-, rfl⟩
    · obtain ⟨f, rfl⟩ := h.extra hOld hFound
      obtain ⟨entry, hEntry, -⟩ := h.exists_of_get? hOld
      exact ⟨f, skipOne_of_lt (lt_size_of_get? hEntry)⟩
    · exact absurd hKind hFound

end Image

namespace Backend

variable {backend copy : Backend} {image whole : Image}

theorem Coherent.lt_of_isReady (h : backend.Coherent image) (hReady : backend.isReady f = true) :
    f < image.size := by
  obtain ⟨entry, -, -, hGet, -⟩ := h.code hReady
  exact Image.lt_size_of_get? hGet

theorem Coherent.lt_of_link (h : backend.Coherent image) {link : Link}
    (hLookup : backend.links.lookup f = some link) : f < image.size := by
  obtain ⟨decl, hGet, -⟩ := h.link hLookup
  exact Image.lt_size_of_get? hGet

/-- Functions that are still to come are neither ready nor linked, so it does not matter where
they will be. -/
theorem Embeds.skip (h : backend.Embeds rename copy) (hImage : image.Embeds rename whole)
    (hCoherent : backend.Coherent image) (hCopy : copy.Coherent whole) :
    backend.Embeds (skipOne rename image.size) copy where
  ready f := by
    rcases Nat.lt_or_ge f image.size with hLt | hGe
    · rw [skipOne_of_lt hLt, h.ready]
    · obtain ⟨more, rfl⟩ := Nat.exists_eq_add_of_le hGe
      have hUnready : backend.isReady (image.size + more) = false :=
        Bool.eq_false_iff.mpr fun hReady =>
          Nat.not_lt.mpr hGe (hCoherent.lt_of_isReady hReady)
      rw [skipOne_of_le hGe, hImage.beyond, hUnready]
      refine Bool.eq_false_iff.mpr fun hReady => ?_
      exact Nat.not_lt.mpr (Nat.le_add_right whole.size (more + 1)) (hCopy.lt_of_isReady hReady)
  link f := by
    rcases Nat.lt_or_ge f image.size with hLt | hGe
    · rw [skipOne_of_lt hLt, h.link]
      cases hLookup : backend.links.lookup f with
      | none => rfl
      | some link =>
        obtain ⟨decl, -, -, hFits⟩ := hCoherent.link hLookup
        cases hFits with
        | host => rfl
        | function _ hTarget =>
          simp only [Option.map_some, Link.map, skipOne_of_lt (Image.lt_size_of_get? hTarget)]
    · obtain ⟨more, rfl⟩ := Nat.exists_eq_add_of_le hGe
      have hUnlinked : backend.links.lookup (image.size + more) = none :=
        Option.eq_none_iff_forall_ne_some.mpr fun link hLookup =>
          Nat.not_lt.mpr hGe (hCoherent.lt_of_link hLookup)
      rw [skipOne_of_le hGe, hImage.beyond, hUnlinked]
      refine Option.eq_none_iff_forall_ne_some.mpr fun link hLookup => ?_
      exact Nat.not_lt.mpr (Nat.le_add_right whole.size (more + 1)) (hCopy.lt_of_link hLookup)

end Backend

end LiveCompiler
