import WiseSdk.Library.Runs
import WiseSdk.Ota.Safety

/-!
# The image on its way to the slot

`file_write` stages the chunks of an image in a buffer of 4096 bytes and `file_close` writes what is
left. When every write is stored and the image has the magic number, the slot holds the chunks one
behind the other, whatever their sizes.

The magic number is looked for in the slot, for an image that fills the buffer after its first part
was written. A shorter image is first written by `file_close`, which looks before it writes: what it
finds is what the slot held before.
-/

namespace WiseSdk.Ota

open Library List

/-- One `file_write`; an error ends the run. -/
def writeStep (dl : Download) (w : Writer) (chunk : List UInt8) : Option Writer :=
  if (fileWrite dl w chunk).2 then some (fileWrite dl w chunk).1 else none

/-- The chunks given to `file_write` one after the other, from an empty buffer. -/
def writeChunks (dl : Download) (chunks : List (List UInt8)) : Option Writer :=
  runSteps (writeStep dl) { slot := dl.slot } chunks

/-- **The image is stored.** All calls succeed, `fbuf_idx` stays below 4096, and after `file_close`
the slot holds the chunks from offset 0 on, the rest unchanged. -/
structure ImageStored (dl : Download) (chunks : List (List UInt8)) : Prop where
  staged : ∀ pre, pre <+: chunks →
    ∃ w, writeChunks dl pre = some w ∧ w.fbuf.length < maxWriteBufLen
  stored : ∃ w, writeChunks dl chunks = some w ∧ (fileClose dl w).2 = true ∧
    (fileClose dl w).1.slot = dl.slot.write 0 chunks.flatten

section Stored

variable {dl : Download} {d image chunk : List UInt8} {w : Writer} {chunks : List (List UInt8)}

/-- Every full buffer of data that fits the slot can be written. -/
theorem blockOk_of_fits (hflash : ∀ k, dl.flash k = none) (hfit : d.length ≤ slotSize) {j : ℕ}
    (hj : j < blocks d) : BlockOk dl j := by
  refine ⟨hflash j, ?_⟩
  have hle : maxWriteBufLen * (j + 1) ≤ maxWriteBufLen * blocks d := Nat.mul_le_mul_left _ hj
  have hblocks := mul_blocks_le d
  omega

theorem not_stopped (hflash : ∀ k, dl.flash k = none) (hfit : image.length ≤ slotSize)
    (hmarked : Marked image) (hpre : d <+: image) : ¬Stopped dl d w := by
  rintro (⟨j, hfailed⟩ | hrejected)
  · exact hfailed.not_ok (blockOk_of_fits hflash (hpre.length_le.trans hfit) hfailed.lt_blocks)
  · exact hrejected.not_marked
      ((marked_iff_of_isPrefix hpre hrejected.blocks_pos).mpr hmarked)

section

variable (h : Clean dl d w) (hflash : ∀ k, dl.flash k = none) (hfit : image.length ≤ slotSize)
  (hmarked : Marked image)

include h hflash hfit hmarked

/-- **A chunk of the image** goes through. -/
theorem Clean.writeStep (hchunk : chunk.length ≤ maxBufLen) (hpre : d ++ chunk <+: image) :
    ∃ w', writeStep dl w chunk = some w' ∧ Clean dl (d ++ chunk) w' := by
  obtain ⟨w', ok, hwrite, hafter⟩ := h.fileWrite hchunk
  cases ok with
  | false => exact absurd hafter (not_stopped hflash hfit hmarked hpre)
  | true => exact ⟨w', by simp [WiseSdk.Ota.writeStep, hwrite], hafter⟩

/-- **A run of chunks** of the image goes through. -/
theorem Clean.writeChunks (hchunks : ∀ chunk ∈ chunks, chunk.length ≤ maxBufLen)
    (hpre : d ++ chunks.flatten <+: image) :
    ∃ w', runSteps (WiseSdk.Ota.writeStep dl) w chunks = some w' ∧
      Clean dl (d ++ chunks.flatten) w' := by
  induction chunks generalizing d w with
  | nil => exact ⟨w, rfl, by simpa using h⟩
  | cons chunk chunks ih =>
    rw [flatten_cons, ← append_assoc] at hpre ⊢
    obtain ⟨w₁, hstep, hclean⟩ := h.writeStep hflash hfit hmarked
      (hchunks chunk mem_cons_self) ((prefix_append _ _).trans hpre)
    obtain ⟨w', hrun, hend⟩ := ih hclean
      (fun c hc => hchunks c (mem_cons_of_mem _ hc)) hpre
    exact ⟨w', by rw [runSteps_cons, hstep]; exact hrun, hend⟩

end

theorem noError_iff (hflash : ∀ k, dl.flash k = none) (hfit : image.length ≤ slotSize)
    (hmarked : Marked image) :
    NoError dl image ↔ maxWriteBufLen ≤ image.length ∨ checkMagic dl.slot = true := by
  have hne : image ≠ [] := by
    rintro rfl
    simp [Marked] at hmarked
  have hblocks : blocks image = 0 ↔ ¬maxWriteBufLen ≤ image.length := by
    rw [blocks, Nat.div_eq_zero_iff, Nat.not_le]
    exact or_iff_right (by decide)
  have hok : ∀ j < blocks image, BlockOk dl j := fun j hj => blockOk_of_fits hflash hfit hj
  by_cases hshort : maxWriteBufLen ≤ image.length
  · refine iff_of_true ⟨hok, fun _ => ⟨hflash _, hfit⟩, ?_⟩ (.inl hshort)
    rw [if_neg fun hzero => hblocks.mp hzero hshort]
    exact hmarked
  · rw [NoError, if_pos (hblocks.mpr hshort), or_iff_right hshort]
    exact ⟨fun h => h.2.2 hne, fun h => ⟨hok, fun _ => ⟨hflash _, hfit⟩, fun _ => h⟩⟩

/-- **Image bytes reach the slot.** For chunks of up to 2048 bytes, writes that are stored and an
image with the magic number, it is stored if and only if it has at least 4096 bytes or the slot had
the magic number before. -/
theorem image_stored_iff (hflash : ∀ k, dl.flash k = none) (hfit : chunks.flatten.length ≤ slotSize)
    (hchunks : ∀ chunk ∈ chunks, chunk.length ≤ maxBufLen) (hmarked : Marked chunks.flatten) :
    ImageStored dl chunks ↔ maxWriteBufLen ≤ chunks.flatten.length ∨ checkMagic dl.slot = true := by
  rw [← noError_iff hflash hfit hmarked]
  -- Whatever is closed in the end, every run of chunks goes through.
  have hrun : ∀ pre, pre <+: chunks →
      ∃ w, writeChunks dl pre = some w ∧ Clean dl pre.flatten w := by
    rintro pre ⟨post, rfl⟩
    have hpre : [] ++ pre.flatten <+: (pre ++ post).flatten := by
      rw [nil_append, flatten_append]
      exact prefix_append _ _
    exact (clean_start dl).writeChunks hflash hfit hmarked
      (fun c hc => hchunks c (mem_append_left _ hc)) hpre
  obtain ⟨w, hw, hclean⟩ := hrun chunks prefix_rfl
  obtain ⟨w', ok, hclose, hok, hslot⟩ := hclean.fileClose
  constructor
  · rintro ⟨-, w₁, hw₁, hclosed, -⟩
    cases hw.symm.trans hw₁
    rw [hclose] at hclosed
    exact hok.mp hclosed
  · intro herr
    have htrue := hok.mpr herr
    refine ⟨fun pre hpre => ?_, w, hw, ?_, ?_⟩
    · obtain ⟨w₁, hw₁, hclean₁⟩ := hrun pre hpre
      exact ⟨w₁, hw₁, hclean₁.fbuf_lt⟩
    · rw [hclose]
      exact htrue
    · rw [hclose]
      exact (hslot htrue).2.1

end Stored

def erasedSlot : Download where
  hbuf := replicate maxBufLen 0xff
  chunks := []
  slot := fun _ => 0xff
  flash := fun _ => none
  hbuf_length := length_replicate
  chunk_length := nofun

/-- An image of 5000 bytes in four chunks, one of them empty and one across the boundary of the
buffer. -/
theorem image_stored_5000 :
    ImageStored erasedSlot [[0x3d, 0xb8, 0xf3, 0x96], replicate 2048 7, [],
      replicate 2048 8, replicate 900 9] :=
  (image_stored_iff (fun _ => rfl) (by decide +kernel) (by decide +kernel)
    (by unfold Marked; decide +kernel)).mpr (.inl (by decide +kernel))

/-- **A short image.** Four bytes, the magic number, for an erased slot: `file_close` returns an
error and the slot stays erased. -/
theorem short_image_refused :
    ∃ w, writeChunks erasedSlot [[0x3d, 0xb8, 0xf3, 0x96]] = some w ∧
      (fileClose erasedSlot w).2 = false ∧ (fileClose erasedSlot w).1.slot = fun _ => 0xff :=
  ⟨{ slot := fun _ => 0xff, fbuf := [0x3d, 0xb8, 0xf3, 0x96] }, rfl, by decide, rfl⟩

/-! ## A whole update -/

theorem taken_eq_append {n : ℤ} {got : List UInt8} {chunks : List (List UInt8)}
    (hn : (got ++ chunks.flatten).length ≤ n) : taken n got chunks = got ++ chunks.flatten := by
  induction chunks generalizing got with
  | nil => simp [taken]
  | cons chunk chunks ih =>
    rw [flatten_cons, ← append_assoc] at hn ⊢
    unfold taken
    split_ifs with hmore
    · exact ih hn
    · have hnil : chunk ++ chunks.flatten = [] := by
        rw [← length_eq_zero_iff]
        simp only [length_append] at hn ⊢
        omega
      rw [append_assoc, hnil, append_nil]

/-- **An update that goes well.** However a body of the announced length arrives: if it fits the
slot and has the magic number and no write fails, the agent reaches `boot_set_pending_multi` with
this body in the slot exactly when it has at least 4096 bytes or the slot had the magic number
before. -/
theorem agent_installs_iff {dl : Download} {hdrLen n : ℕ} (hheader : dl.header = .ok (hdrLen, n))
    (hlen : (dl.body hdrLen).length = n) (hflash : ∀ k, dl.flash k = none) (hfit : n ≤ slotSize)
    (hmarked : Marked (dl.body hdrLen)) :
    (∃ w, doMcubootAgent dl = .ok w ∧ w.slot = dl.slot.write 0 (dl.body hdrLen)) ↔
      maxWriteBufLen ≤ n ∨ checkMagic dl.slot = true := by
  subst hlen
  have hdata : dl.data hdrLen (dl.body hdrLen).length = dl.body hdrLen :=
    taken_eq_append (Int.le_refl _)
  obtain ⟨w, hw, hagent⟩ := doMcubootAgent_of_header hheader
  rw [hdata] at hw
  have hclean := hw.resolve_right (not_stopped hflash hfit hmarked prefix_rfl)
  obtain ⟨w', ok, hclose, hok, hafter⟩ := hclean.fileClose
  rw [← noError_iff hflash hfit hmarked, ← hok, hagent, hclose]
  refine ⟨fun ⟨_, hend, _⟩ => ?_, fun htrue => ⟨w', if_pos htrue, (hafter htrue).2.1⟩⟩
  by_contra hnot
  simp [hnot] at hend

/-- Five bytes in two chunks, for a slot that has an image. -/
def smallUpdate : Download := { closedEarly with
  chunks := [bytes "HTTP/1.1 200 OK\r\nContent-Length: 5\r\n\r\n", [0x3d, 0xb8], [0xf3, 0x96, 7]]
  slot := fun i => [0x3d, 0xb8, 0xf3, 0x96].getD i 0xff
  chunk_length := by decide +kernel }

theorem smallUpdate_installed : ∃ w, doMcubootAgent smallUpdate = .ok w ∧
    w.slot = smallUpdate.slot.write 0 [0x3d, 0xb8, 0xf3, 0x96, 7] :=
  (agent_installs_iff (n := 5) (by decide +kernel : smallUpdate.header = .ok (37, 5))
    (by decide +kernel) (fun _ => rfl) (by decide) (by unfold Marked; decide +kernel)).mpr
    (.inr (by decide))

end WiseSdk.Ota
