import Mathlib.Data.List.Nodup
import Xkblas.Sched.FrameStack

/-!
# When the stack of a thread is sound

The test for room compares the block of the top of the stack with the block of its next value. It
is right as long as the top is in the current block. A region that does not fit behind the header
of a fresh block, the second advance of the top after a fresh block in `kaapi_task_alloc`, and an
alignment to the end of the block take it out. A pop gives back what the frame below has got since
its own push, so it is right when this is nothing.
-/

namespace Xkblas.Sched.FrameStack

open Library

variable {L : Layout}

/-! ## Sound states -/

/-- The regions are disjoint, each between the header and the end of a block of the stack, and the
top is in the current block. -/
structure StackSound (L : Layout) (s : State) : Prop where
  apart : s.regions.Pairwise Region.Apart
  inside : ∀ r ∈ s.regions, ∃ bloc ∈ s.blocs, r.Inside L.blocSize L.header bloc
  top : ∃ bloc, s.blocs.head? = some bloc ∧ bloc ≤ s.sp ∧ s.sp < bloc + L.blocSize

/-- A pop gives the blocks acquired since the push of the popped frame to the free list, each once.
Above a frame that must not be unlinked it does nothing. -/
def PopExact (s t : State) : Prop :=
  ∀ top frame rest, s.frames = top :: frame :: rest →
    if frame.noUnlink then t = s
    else
      t.frames = frame :: rest ∧ t.blocs = top.blocs ∧
        ∃ acquired, s.blocs = acquired ++ top.blocs ∧ t.free = acquired ++ s.free ∧
          (t.blocs ++ t.free).Nodup

/-- A push that finds room has a size that does not wrap around the memory. One that does not
find room fits into a fresh block, in which the top advances by `total`. -/
def PushFits (L : Layout) (s : State) (size total : Nat) : Prop :=
  if s.HasEnoughDataspace L size then size < L.blocSize else L.header + total < L.blocSize

instance (s : State) (size total : Nat) : Decidable (PushFits L s size total) :=
  inferInstanceAs (Decidable
    (if s.HasEnoughDataspace L size then size < L.blocSize else L.header + total < L.blocSize))

/-- The top of the stack is rounded up. -/
def aligned (s : State) (align : Nat) : State :=
  { s with sp := State.alignUp s.sp align }

/-- The rest of the block of an address. -/
def room (L : Layout) (sp : Nat) : Region :=
  ⟨sp, blockOf L.blocSize sp + L.blocSize - sp⟩

/-- When a frame is popped, the frame below has got no region and no block before its push that lies
behind the top that it restores. -/
def PopFits (L : Layout) (s : State) : Prop :=
  match s.frames with
  | top :: frame :: _ =>
      frame.noUnlink = true ∨
        top.blocs = frame.blocs ∧ ∀ r ∈ top.regions, r.Apart (room L frame.sp)
  | _ => True

instance (s : State) : Decidable (PopFits L s) :=
  match s with
  | ⟨_, _, _, _ :: _ :: _, _⟩ => inferInstanceAs (Decidable (_ = true ∨ _ ∧ _))
  | ⟨_, _, _, [_], _⟩ | ⟨_, _, _, [], _⟩ => inferInstanceAs (Decidable True)

/-- Every push fits, that of a task with the second advance of the top, and so does every pop. The
alignment does not leave the block unless the push goes to a fresh one. -/
def Fits (L : Layout) (s : State) (a : Action) : Prop :=
  match a with
  | .dataPush size _ => PushFits L s size size
  | .dataPushAlign count align _ =>
      PushFits L (aligned s align) count count ∧
        ((aligned s align).HasEnoughDataspace L count →
          blockOf L.blocSize (aligned s align).sp = blockOf L.blocSize s.sp)
  | .taskAlloc size _ => PushFits L s size (2 * size)
  | .framePush _ _ => True
  | .framePop => PopFits L s

instance (s : State) (a : Action) : Decidable (Fits L s a) :=
  match a with
  | .dataPush size _ => inferInstanceAs (Decidable (PushFits L s size size))
  | .dataPushAlign _ _ _ => inferInstanceAs (Decidable (_ ∧ _))
  | .taskAlloc size _ => inferInstanceAs (Decidable (PushFits L s size (2 * size)))
  | .framePush .. => inferInstanceAs (Decidable True)
  | .framePop => inferInstanceAs (Decidable (PopFits L s))

/-- A step is right: it leaves a sound state, a pop is exact, and the data that is pushed next, if
it fits, leaves a sound state too. -/
structure StepSound (L : Layout) (s : State) (a : Action) (t : State) : Prop where
  sound : StackSound L t
  pop : a = .framePop → PopExact s t
  pushes : ∀ size fresh u, Fits L t (.dataPush size fresh) →
    step L t (.dataPush size fresh) = some u → StackSound L u

/-! ## The invariant -/

/-- A block of the stack or of the free list. -/
structure IsBloc (L : Layout) (bloc : Nat) : Prop where
  aligned : L.blocSize ∣ bloc
  pos : 0 < bloc
  fits : bloc + L.blocSize ≤ 2 ^ 64

/-- A block that is not null is behind at least one other, so that an address that wraps is not in
it. -/
theorem IsBloc.blocSize_le {bloc : Nat} (h : IsBloc L bloc) : L.blocSize ≤ bloc :=
  Nat.le_of_dvd h.pos h.aligned

/-- The top of the stack is in the current block `bloc`, and the regions of this block are below
it, unless they are empty. -/
structure Good (L : Layout) (sp bloc : Nat) (rest : List Nat) (regions : List Region) : Prop where
  blocs : ∀ b ∈ bloc :: rest, IsBloc L b
  lower : bloc + L.header ≤ sp
  upper : sp < bloc + L.blocSize
  placed : ∀ r ∈ regions,
    (r.Inside L.blocSize L.header bloc ∧ (r.size = 0 ∨ r.start + r.size ≤ sp)) ∨
      ∃ b ∈ rest, r.Inside L.blocSize L.header b
  apart : regions.Pairwise Region.Apart

/-- The same for the list of the blocks. -/
def GoodStack (L : Layout) (sp : Nat) (blocs : List Nat) (regions : List Region) : Prop :=
  ∃ bloc rest, blocs = bloc :: rest ∧ Good L sp bloc rest regions

/-- The invariant of the runs: the stack is good, and so was it when each frame was pushed, with
blocks that are still at its bottom. -/
structure Inv (L : Layout) (s : State) : Prop where
  good : GoodStack L s.sp s.blocs s.regions
  free : ∀ b ∈ s.free, IsBloc L b
  nodup : (s.blocs ++ s.free).Nodup
  saved : ∀ f ∈ s.frames, GoodStack L f.sp f.blocs f.regions ∧ f.bloc ∈ f.blocs ∧
    f.blocs <:+ s.blocs
  nested : s.frames.Pairwise fun f g => g.blocs <:+ f.blocs

namespace Good

variable {sp bloc : Nat} {rest : List Nat} {regions : List Region}

theorem blockOf_eq (h : Good L sp bloc rest regions) : blockOf L.blocSize sp = bloc :=
  (blockOf_eq_iff L.blocSize_pos (h.blocs bloc List.mem_cons_self).aligned).mpr
    ⟨(Nat.le_add_right _ _).trans h.lower, h.upper⟩

/-- Regions of different blocks are apart. -/
theorem apart_of_blocs {b b' : Nat} {r r' : Region} (hb : IsBloc L b) (hb' : IsBloc L b')
    (hne : b ≠ b') (hr : r.Inside L.blocSize L.header b)
    (hr' : r'.Inside L.blocSize L.header b') : r.Apart r' := by
  unfold Region.Inside at hr hr'
  unfold Region.Apart
  rcases block_apart L.blocSize_pos hb.aligned hb'.aligned hne with hle | hle
  · omega
  · omega

/-- A region at or above the top of the stack that ends in the current block. -/
theorem pushFast (h : Good L sp bloc rest regions) (hnot : bloc ∉ rest) {start size : Nat}
    (hstart : sp ≤ start) (hend : start + size < bloc + L.blocSize) :
    Good L (start + size) bloc rest (⟨start, size⟩ :: regions) := by
  have hinside : (⟨start, size⟩ : Region).Inside L.blocSize L.header bloc :=
    ⟨h.lower.trans hstart, hend.le⟩
  constructor
  case blocs => exact h.blocs
  case lower => exact (h.lower.trans hstart).trans (Nat.le_add_right start size)
  case upper => exact hend
  case placed =>
    intro r hr
    rcases List.mem_cons.mp hr with rfl | hmem
    · exact .inl ⟨hinside, .inr (Nat.le_refl _)⟩
    · rcases h.placed r hmem with ⟨hin, hle⟩ | hother
      · exact .inl ⟨hin, hle.imp_right fun hle =>
          (hle.trans hstart).trans (Nat.le_add_right start size)⟩
      · exact .inr hother
  case apart =>
    refine List.pairwise_cons.mpr ⟨fun r hr => ?_, h.apart⟩
    rcases h.placed r hr with ⟨_, hle⟩ | ⟨b, hb, hin⟩
    · show min (start + size) (r.start + r.size) ≤ max start r.start
      omega
    · have hne : bloc ≠ b := fun heq => hnot (heq ▸ hb)
      exact apart_of_blocs (h.blocs bloc List.mem_cons_self)
        (h.blocs b (List.mem_cons_of_mem _ hb)) hne hinside hin

/-- A region behind the header of a new block. -/
theorem pushSlow (h : Good L sp bloc rest regions) {b size total : Nat} (hb : IsBloc L b)
    (hnot : b ∉ bloc :: rest) (hsize : size ≤ total) (hfits : L.header + total < L.blocSize) :
    Good L (b + L.header + total) b (bloc :: rest) (⟨b + L.header, size⟩ :: regions) := by
  have hinside : (⟨b + L.header, size⟩ : Region).Inside L.blocSize L.header b :=
    ⟨Nat.le_refl _, by show b + L.header + size ≤ b + L.blocSize; omega⟩
  have hold : ∀ r ∈ regions, ∃ b' ∈ bloc :: rest, r.Inside L.blocSize L.header b' := by
    intro r hr
    rcases h.placed r hr with ⟨hin, _⟩ | ⟨b', hb', hin⟩
    · exact ⟨bloc, List.mem_cons_self, hin⟩
    · exact ⟨b', List.mem_cons_of_mem _ hb', hin⟩
  constructor
  case blocs =>
    intro b' hb'
    rcases List.mem_cons.mp hb' with rfl | hmem
    · exact hb
    · exact h.blocs b' hmem
  case lower => exact Nat.le_add_right _ _
  case upper => omega
  case placed =>
    intro r hr
    rcases List.mem_cons.mp hr with rfl | hmem
    · exact .inl ⟨hinside, .inr (Nat.add_le_add_left hsize _)⟩
    · exact .inr (hold r hmem)
  case apart =>
    refine List.pairwise_cons.mpr ⟨fun r hr => ?_, h.apart⟩
    obtain ⟨b', hb', hin⟩ := hold r hr
    exact apart_of_blocs hb (h.blocs b' hb') (fun heq => hnot (heq ▸ hb')) hinside hin

/-- The top goes down to `sp'`, behind which there are no regions. -/
theorem lowerTop (h : Good L sp bloc rest regions) {sp' : Nat} (hlow : bloc + L.header ≤ sp')
    (hhigh : sp' < bloc + L.blocSize) (hroom : ∀ r ∈ regions, r.Apart (room L sp')) :
    Good L sp' bloc rest regions := by
  have hblock : blockOf L.blocSize sp' = bloc :=
    (blockOf_eq_iff L.blocSize_pos (h.blocs bloc List.mem_cons_self).aligned).mpr
      ⟨(Nat.le_add_right _ _).trans hlow, hhigh⟩
  refine ⟨h.blocs, hlow, hhigh, fun r hr => ?_, h.apart⟩
  rcases h.placed r hr with ⟨hin, _⟩ | hother
  · refine .inl ⟨hin, ?_⟩
    have happart := hroom r hr
    have hend := hin.2
    unfold Region.Apart room at happart
    rw [hblock] at happart
    dsimp only at happart
    omega
  · exact .inr hother

/-- A region behind `sp'` in the current block has a byte that data pushed at `sp'` reaches. -/
theorem exists_reached (h : Good L sp bloc rest regions) {sp' : Nat} (hlow : bloc + L.header ≤ sp')
    (hhigh : sp' < bloc + L.blocSize) {r : Region} (hr : r ∈ regions)
    (hover : ¬ r.Apart (room L sp')) (hrest : ∀ b ∈ rest, b ≠ bloc) :
    ∃ size, sp' + size < bloc + L.blocSize ∧ ¬ Region.Apart ⟨sp', size⟩ r := by
  have hbloc := h.blocs bloc List.mem_cons_self
  have hblock : blockOf L.blocSize sp' = bloc :=
    (blockOf_eq_iff L.blocSize_pos hbloc.aligned).mpr ⟨(Nat.le_add_right _ _).trans hlow, hhigh⟩
  have hroom : (room L sp').Inside L.blocSize L.header bloc := by
    refine ⟨hlow, ?_⟩
    show sp' + (blockOf L.blocSize sp' + L.blocSize - sp') ≤ bloc + L.blocSize
    rw [hblock]
    omega
  rcases h.placed r hr with ⟨hin, hend⟩ | ⟨b, hb, hin⟩
  · -- up to the first byte of the region behind `sp'`
    refine ⟨max r.start sp' + 1 - sp', ?_, fun happart => ?_⟩
    all_goals
      have hup := h.upper
      unfold Region.Apart room at hover
      rw [hblock] at hover
      dsimp only at hover
    · omega
    · unfold Region.Apart at happart
      dsimp only at happart
      omega
  · exact absurd (apart_of_blocs (h.blocs b (List.mem_cons_of_mem _ hb)) hbloc (hrest b hb) hin
      hroom) hover

end Good

/-! ## Pops -/

namespace Inv

variable {s t : State}

/-- The blocks above those of a frame, and the pop that gives them back. -/
theorem pop_eq (h : Inv L s) {top frame : Frame} {rest : List Frame}
    (hframes : s.frames = top :: frame :: rest) (hlink : frame.noUnlink = false) :
    ∃ acquired, s.blocs = acquired ++ frame.blocs ∧
      s.framePop L = some ⟨frame.sp, frame.blocs, acquired ++ s.free, frame :: rest,
        top.regions⟩ := by
  have hmem : frame ∈ s.frames := by
    rw [hframes]
    exact List.mem_cons_of_mem _ List.mem_cons_self
  obtain ⟨⟨bloc, below, hblocs, hgood⟩, hbloc, acquired, hacquired⟩ := h.saved frame hmem
  refine ⟨acquired, hacquired.symm, ?_⟩
  have hnodup : (acquired ++ frame.blocs).Nodup := by
    rw [hacquired]
    exact (List.nodup_append.mp h.nodup).1
  have hapart : ∀ b ∈ acquired, b ∉ frame.blocs := fun b hb hb' =>
    (List.nodup_append.mp hnodup).2.2 b hb b hb' rfl
  -- when the first block is one of the frame's, no block has been acquired since
  have hnone : ∀ b, b ∈ frame.blocs → s.blocs.head? = some b → acquired = [] := by
    intro b hb hhead
    cases acquired with
    | nil => rfl
    | cons a rest =>
        rw [← hacquired] at hhead
        obtain rfl : a = b := Option.some.inj hhead
        exact absurd hb (hapart a List.mem_cons_self)
  have hframe : blockOf L.blocSize frame.sp = bloc := hgood.blockOf_eq
  have hin : bloc ∈ frame.blocs := hblocs ▸ List.mem_cons_self
  unfold State.framePop
  rw [hframes]
  simp only [hlink, Bool.false_eq_true, if_false]
  split
  case isTrue hhead =>
    obtain rfl := hnone frame.bloc hbloc hhead
    rw [Option.map_some, ← hacquired]
    rfl
  case isFalse =>
    unfold State.stackFreeUntil
    simp only [hframe]
    split
    case isTrue hhead =>
      obtain rfl := hnone bloc hin hhead
      rw [Option.map_some, ← hacquired]
      rfl
    case isFalse =>
      have hmemb : bloc ∈ s.blocs := hacquired ▸ List.mem_append_right acquired hin
      have hpass : ∀ b ∈ acquired, decide (b ≠ bloc) = true := fun b hb =>
        decide_eq_true fun heq => hapart b hb (heq ▸ hin)
      rw [if_pos hmemb, Option.map_some, ← hacquired, hblocs,
        List.dropWhile_append_of_pos hpass, List.takeWhile_append_of_pos hpass]
      simp

/-- The invariant implies what is asked for. -/
theorem isSound (h : Inv L s) : StackSound L s := by
  obtain ⟨bloc, rest, hblocs, hgood⟩ := h.good
  constructor
  case apart => exact hgood.apart
  case inside =>
    intro r hr
    rw [hblocs]
    rcases hgood.placed r hr with ⟨hin, _⟩ | ⟨b, hb, hin⟩
    · exact ⟨bloc, List.mem_cons_self, hin⟩
    · exact ⟨b, List.mem_cons_of_mem _ hb, hin⟩
  case top =>
    exact ⟨bloc, by rw [hblocs]; rfl, (Nat.le_add_right _ _).trans hgood.lower, hgood.upper⟩

/-- The stack grows, with the frames that it had. -/
theorem grow (h : Inv L s) {sp : Nat} {blocs free : List Nat} {regions : List Region}
    (hgood : GoodStack L sp blocs regions) (hfree : ∀ b ∈ free, IsBloc L b)
    (hnodup : (blocs ++ free).Nodup) (hsuffix : s.blocs <:+ blocs) :
    Inv L ⟨sp, blocs, free, s.frames, regions⟩ :=
  ⟨hgood, hfree, hnodup, fun f hf => ⟨(h.saved f hf).1, (h.saved f hf).2.1,
    (h.saved f hf).2.2.trans hsuffix⟩, h.nested⟩

/-- A push that finds room at `sp`, which is at or above the top or null. -/
theorem pushFast_iff (h : Inv L s) {sp size : Nat} (hsp : sp = 0 ∨ s.sp ≤ sp)
    (henough : blockOf L.blocSize sp = blockOf L.blocSize ((sp + size) % 2 ^ 64)) :
    (blockOf L.blocSize sp = blockOf L.blocSize s.sp → size < L.blocSize →
      Inv L ({ s with sp := (sp + size) % 2 ^ 64 }.returned sp size)) ∧
    (StackSound L ({ s with sp := (sp + size) % 2 ^ 64 }.returned sp size) →
      blockOf L.blocSize sp = blockOf L.blocSize s.sp ∧ size < L.blocSize) := by
  obtain ⟨bloc, rest, hblocs, hgood⟩ := h.good
  have hbloc := hgood.blocs bloc List.mem_cons_self
  have hle := hbloc.blocSize_le
  have hfits := hbloc.fits
  have hiff : ∀ a, blockOf L.blocSize a = bloc ↔ bloc ≤ a ∧ a < bloc + L.blocSize :=
    fun a => blockOf_eq_iff L.blocSize_pos hbloc.aligned
  rw [hgood.blockOf_eq]
  constructor
  · intro hcur hsize
    have hat := (hiff sp).mp hcur
    have hend := (hiff _).mp (henough.symm.trans hcur)
    have hpos := hbloc.pos
    -- the new top does not wrap
    have hmod : (sp + size) % 2 ^ 64 = sp + size := by
      rw [Nat.mod_def] at hend ⊢
      omega
    rw [hmod] at hend ⊢
    have hnot : bloc ∉ rest := by
      have hnodup := (List.nodup_append.mp h.nodup).1
      rw [hblocs] at hnodup
      exact (List.nodup_cons.mp hnodup).1
    exact h.grow ⟨bloc, rest, hblocs, hgood.pushFast hnot (by omega) hend.2⟩ h.free h.nodup
      (List.suffix_refl _)
  · intro hsound
    obtain ⟨b, hb, hlow, hhigh⟩ := hsound.top
    obtain rfl : bloc = b := by
      have hhead : s.blocs.head? = some b := hb
      rw [hblocs] at hhead
      exact Option.some.inj hhead
    refine ⟨henough.trans ((hiff _).mpr ⟨hlow, hhigh⟩), ?_⟩
    obtain ⟨b', _, hin⟩ := hsound.inside ⟨sp, size⟩ List.mem_cons_self
    have hlow' : b' + L.header ≤ sp := hin.1
    have hhigh' : sp + size ≤ b' + L.blocSize := hin.2
    have hheader := L.header_pos
    omega

/-- A push into a fresh block, in which the top advances by `total`. -/
theorem pushSlow_iff (h : Inv L s) {bloc size : Nat} (total : Nat) {free : List Nat}
    (hbloc : IsBloc L bloc) (hfree : ∀ b ∈ free, IsBloc L b)
    (hnodup : (bloc :: s.blocs ++ free).Nodup) (hsize : size < L.blocSize)
    (htotal : total = size ∨ total = 2 * size ∧ size < 2 ^ 32) :
    (L.header + total < L.blocSize →
      Inv L ⟨(bloc + L.header + total) % 2 ^ 64, bloc :: s.blocs, free, s.frames,
        ⟨bloc + L.header, size⟩ :: s.regions⟩) ∧
    (StackSound L ⟨(bloc + L.header + total) % 2 ^ 64, bloc :: s.blocs, free, s.frames,
        ⟨bloc + L.header, size⟩ :: s.regions⟩ → L.header + total < L.blocSize) := by
  obtain ⟨cur, rest, hblocs, hgood⟩ := h.good
  have hle := hbloc.blocSize_le
  have hfits := hbloc.fits
  constructor
  · intro htop
    have hmod : (bloc + L.header + total) % 2 ^ 64 = bloc + L.header + total :=
      Nat.mod_eq_of_lt (by omega)
    have hnot : bloc ∉ cur :: rest := by
      rw [← hblocs]
      exact fun hmem => (List.nodup_cons.mp hnodup).1 (List.mem_append_left _ hmem)
    rw [hmod]
    refine h.grow ⟨bloc, s.blocs, rfl, ?_⟩ hfree hnodup (List.suffix_cons bloc s.blocs)
    rw [hblocs]
    exact hgood.pushSlow hbloc hnot (by omega) htop
  · intro hsound
    obtain ⟨b, hb, hlow, hhigh⟩ := hsound.top
    obtain rfl : bloc = b := Option.some.inj hb
    have hheader := L.header_lt
    have hlow' : bloc ≤ (bloc + L.header + total) % 2 ^ 64 := hlow
    have hhigh' : (bloc + L.header + total) % 2 ^ 64 < bloc + L.blocSize := hhigh
    rw [Nat.mod_def] at hlow' hhigh'
    omega

/-- The block that the allocator gives. -/
theorem of_slowPushData (h : Inv L s) (sp : Nat) {size fresh retval : Nat} {u : State}
    (hstep : { s with sp := sp }.slowPushData L size fresh = some (u, retval)) :
    size < L.blocSize ∧ ∃ bloc free, IsBloc L bloc ∧ (∀ b ∈ free, IsBloc L b) ∧
      (bloc :: s.blocs ++ free).Nodup ∧ retval = bloc + L.header ∧
      u = ⟨(bloc + L.header + size) % 2 ^ 64, bloc :: s.blocs, free, s.frames, s.regions⟩ := by
  obtain ⟨⟨v, r⟩, hresize, heq⟩ := Option.map_eq_some_iff.mp hstep
  cases heq
  unfold State.resizeStack at hresize
  split at hresize
  case isTrue => cases hresize
  case isFalse hsize =>
    obtain ⟨⟨w, bloc⟩, hpush, heq⟩ := Option.map_eq_some_iff.mp hresize
    cases heq
    refine ⟨not_le.mp hsize, ?_⟩
    unfold State.pushBloc at hpush
    split at hpush
    case h_1 b rest hfree =>
      cases hpush
      have hnodup := h.nodup
      have hisbloc := h.free
      rw [hfree] at hnodup hisbloc
      exact ⟨bloc, rest, hisbloc bloc List.mem_cons_self,
        fun b hb => hisbloc b (List.mem_cons_of_mem _ hb), List.nodup_middle.mp hnodup, rfl, rfl⟩
    case h_2 hfree =>
      split at hpush
      case isFalse => cases hpush
      case isTrue hfresh =>
        cases hpush
        obtain ⟨hdvd, hpos, hfits, hnot, _⟩ := hfresh
        refine ⟨fresh, s.free, ⟨hdvd, hpos, hfits⟩, h.free, ?_, rfl, rfl⟩
        refine List.nodup_cons.mpr ⟨fun hmem => ?_, h.nodup⟩
        rcases List.mem_append.mp hmem with hin | hin
        · exact hnot hin
        · rw [hfree] at hin
          exact List.not_mem_nil hin

/-- `kaapi_data_push` with the top at `sp`. -/
theorem dataPush_iff (h : Inv L s) (sp : Nat) {size fresh : Nat} (hsp : sp = 0 ∨ s.sp ≤ sp)
    (hstep : { s with sp := sp }.dataPush L size fresh = some t) :
    (PushFits L { s with sp := sp } size size ∧
        ({ s with sp := sp }.HasEnoughDataspace L size →
          blockOf L.blocSize sp = blockOf L.blocSize s.sp) → Inv L t) ∧
      (StackSound L t → PushFits L { s with sp := sp } size size ∧
        ({ s with sp := sp }.HasEnoughDataspace L size →
          blockOf L.blocSize sp = blockOf L.blocSize s.sp)) := by
  unfold PushFits
  unfold State.dataPush at hstep
  split at hstep
  case isTrue henough =>
    cases hstep
    obtain ⟨hkeep, hback⟩ := h.pushFast_iff hsp henough
    rw [if_pos henough]
    exact ⟨fun hfits => hkeep (hfits.2 henough) hfits.1,
      fun hsound => ⟨(hback hsound).2, fun _ => (hback hsound).1⟩⟩
  case isFalse hno =>
    obtain ⟨⟨u, retval⟩, hslow, rfl⟩ := Option.map_eq_some_iff.mp hstep
    -- the slow path forgets the top
    obtain ⟨hsize, bloc, free, hbloc, hfree, hnodup, rfl, rfl⟩ := h.of_slowPushData sp hslow
    obtain ⟨hkeep, hback⟩ := h.pushSlow_iff size hbloc hfree hnodup hsize (.inl rfl)
    rw [if_neg hno]
    exact ⟨fun hfits => hkeep hfits.1, fun hsound => ⟨hback hsound, fun hyes => absurd hyes hno⟩⟩

/-- `kaapi_task_alloc`. -/
theorem taskAlloc_iff (h : Inv L s) {size fresh : Nat} (hlt : size < 2 ^ 32)
    (hstep : s.taskAlloc L size fresh = some t) :
    (PushFits L s size (2 * size) → Inv L t) ∧
      (StackSound L t → PushFits L s size (2 * size)) := by
  obtain ⟨⟨u, task⟩, hfound, rfl⟩ := Option.map_eq_some_iff.mp hstep
  unfold PushFits
  split at hfound
  case isTrue henough =>
    cases hfound
    obtain ⟨hkeep, hback⟩ := h.pushFast_iff (.inr (Nat.le_refl s.sp)) henough
    rw [if_pos henough]
    exact ⟨hkeep rfl, fun hsound => (hback hsound).2⟩
  case isFalse hno =>
    obtain ⟨hsize, bloc, free, hbloc, hfree, hnodup, rfl, rfl⟩ :=
      h.of_slowPushData s.sp hfound
    obtain ⟨hkeep, hback⟩ := h.pushSlow_iff (2 * size) hbloc hfree hnodup hsize
      (.inr ⟨rfl, hlt⟩)
    have htop : ((bloc + L.header + size) % 2 ^ 64 + size) % 2 ^ 64 =
        (bloc + L.header + 2 * size) % 2 ^ 64 := by
      rw [Nat.mod_add_mod]
      congr 1
      omega
    rw [if_neg hno]
    unfold State.returned
    simp only [htop]
    exact ⟨hkeep, hback⟩

/-- A frame saves a good stack. -/
theorem framePush (h : Inv L s) {bloc : Nat} (hbloc : bloc ∈ s.blocs) (noUnlink : Bool) :
    Inv L (s.framePush noUnlink bloc) := by
  refine ⟨h.good, h.free, h.nodup, fun f hf => ?_, ?_⟩
  · rcases List.mem_cons.mp hf with rfl | hmem
    · exact ⟨h.good, hbloc, List.suffix_refl _⟩
    · exact h.saved f hmem
  · exact List.pairwise_cons.mpr ⟨fun f hf => (h.saved f hf).2.2, h.nested⟩

/-- A pop above a frame that must not be unlinked. -/
theorem framePop_noUnlink {top frame : Frame} {rest : List Frame}
    (hframes : s.frames = top :: frame :: rest) (hlink : frame.noUnlink = true) :
    s.framePop L = some s := by
  unfold State.framePop
  rw [hframes]
  exact if_pos hlink

/-- A pop that fits is exact, -/
theorem popExact (h : Inv L s) (hfits : PopFits L s) (hstep : s.framePop L = some t) :
    PopExact s t := by
  intro top frame rest hframes
  unfold PopFits at hfits
  rw [hframes] at hfits
  cases hlink : frame.noUnlink with
  | true =>
      rw [framePop_noUnlink hframes hlink] at hstep
      exact (Option.some.inj hstep).symm
  | false =>
      obtain ⟨hblocs, -⟩ := hfits.resolve_left (by rw [hlink]; exact Bool.false_ne_true)
      obtain ⟨acquired, hacquired, hpop⟩ := h.pop_eq hframes hlink
      rw [hpop] at hstep
      cases hstep
      have hnodup := h.nodup
      rw [hacquired, List.append_assoc] at hnodup
      refine ⟨rfl, hblocs.symm, acquired, hblocs ▸ hacquired, rfl, ?_⟩
      exact (List.perm_append_comm_assoc _ _ _).nodup_iff.mpr hnodup

/-- and leaves a good stack. -/
theorem framePop (h : Inv L s) (hfits : PopFits L s) (hstep : s.framePop L = some t) :
    Inv L t := by
  cases hframes : s.frames with
  | nil =>
      simp only [State.framePop, hframes] at hstep
      cases hstep
  | cons top rest =>
      cases rest with
      | nil =>
          simp only [State.framePop, hframes] at hstep
          cases hstep
      | cons frame rest =>
          unfold PopFits at hfits
          rw [hframes] at hfits
          cases hlink : frame.noUnlink with
          | true =>
              rw [framePop_noUnlink hframes hlink] at hstep
              cases hstep
              exact h
          | false =>
              obtain ⟨hblocs, hroom⟩ :=
                hfits.resolve_left (by rw [hlink]; exact Bool.false_ne_true)
              obtain ⟨acquired, hacquired, hpop⟩ := h.pop_eq hframes hlink
              rw [hpop] at hstep
              cases hstep
              have hmem : ∀ f ∈ frame :: rest, f ∈ s.frames := fun f hf => by
                rw [hframes]
                exact List.mem_cons_of_mem _ hf
              have htop : top ∈ s.frames := by
                rw [hframes]
                exact List.mem_cons_self
              have hnested := h.nested
              rw [hframes] at hnested
              obtain ⟨hbelow, hrest⟩ := List.pairwise_cons.mp (List.pairwise_cons.mp hnested).2
              obtain ⟨bloc, below, hframe, hsaved⟩ :=
                (h.saved frame (hmem frame List.mem_cons_self)).1
              obtain ⟨bloc', below', htops, hgood⟩ := (h.saved top htop).1
              obtain ⟨rfl, rfl⟩ : bloc' = bloc ∧ below' = below := by
                rw [htops, hframe] at hblocs
                exact List.cons.inj hblocs
              refine ⟨⟨bloc', below', hframe, hgood.lowerTop hsaved.lower hsaved.upper hroom⟩,
                fun b hb => ?_, ?_, fun f hf => ?_, (List.pairwise_cons.mp hnested).2⟩
              · rcases List.mem_append.mp hb with hacq | hfree
                · obtain ⟨cur, below, hcurs, hcur⟩ := h.good
                  refine hcur.blocs b ?_
                  rw [← hcurs, hacquired]
                  exact List.mem_append_left _ hacq
                · exact h.free b hfree
              · have hnodup := h.nodup
                rw [hacquired, List.append_assoc] at hnodup
                exact (List.perm_append_comm_assoc _ _ _).nodup_iff.mpr hnodup
              · refine ⟨(h.saved f (hmem f hf)).1, (h.saved f (hmem f hf)).2.1, ?_⟩
                rcases List.mem_cons.mp hf with rfl | hin
                · exact List.suffix_refl _
                · exact hbelow f hin

/-- A pop that does not fit is not exact, or data that is pushed next touches a region. -/
theorem popFits (h : Inv L s) (hstep : s.framePop L = some t) (hsound : StepSound L s .framePop t) :
    PopFits L s := by
  unfold PopFits
  split
  case h_2 => trivial
  case h_1 top frame rest hframes =>
  cases hlink : frame.noUnlink with
  | true => exact .inl rfl
  | false =>
  refine .inr ?_
  have hexact := hsound.pop rfl top frame rest hframes
  rw [hlink, if_neg Bool.false_ne_true] at hexact
  obtain ⟨acquired, hacquired, hpop⟩ := h.pop_eq hframes hlink
  rw [hpop] at hstep
  cases hstep
  have hblocs : top.blocs = frame.blocs := hexact.2.1.symm
  refine ⟨hblocs, fun r hr => ?_⟩
  by_contra hover
  have htop : top ∈ s.frames := by
    rw [hframes]
    exact List.mem_cons_self
  have hframe : frame ∈ s.frames := by
    rw [hframes]
    exact List.mem_cons_of_mem _ List.mem_cons_self
  obtain ⟨bloc, below, hframes', hsaved⟩ := (h.saved frame hframe).1
  obtain ⟨bloc', below', htops, hgood⟩ := (h.saved top htop).1
  obtain ⟨rfl, rfl⟩ : bloc' = bloc ∧ below' = below := by
    rw [htops, hframes'] at hblocs
    exact List.cons.inj hblocs
  have hrest : ∀ b ∈ below', b ≠ bloc' := by
    have hnodup := (List.nodup_append.mp h.nodup).1
    rw [hacquired, hframes'] at hnodup
    rintro b hb rfl
    exact (List.nodup_cons.mp (List.nodup_append.mp hnodup).2.1).1 hb
  obtain ⟨size, hsize, hnot⟩ := hgood.exists_reached hsaved.lower hsaved.upper hr hover hrest
  have hbloc := hgood.blocs bloc' List.mem_cons_self
  have hfits := hbloc.fits
  have hlow := hsaved.lower
  have hmod : (frame.sp + size) % 2 ^ 64 = frame.sp + size := Nat.mod_eq_of_lt (by omega)
  -- the push finds room
  have henough : State.HasEnoughDataspace L ⟨frame.sp, frame.blocs, acquired ++ s.free,
      frame :: rest, top.regions⟩ size := by
    show blockOf L.blocSize frame.sp = blockOf L.blocSize ((frame.sp + size) % 2 ^ 64)
    rw [hmod, hsaved.blockOf_eq]
    exact ((blockOf_eq_iff L.blocSize_pos hbloc.aligned).mpr ⟨by omega, hsize⟩).symm
  have hpush : PushFits L ⟨frame.sp, frame.blocs, acquired ++ s.free, frame :: rest, top.regions⟩
      size size := by
    unfold PushFits
    rw [if_pos henough]
    omega
  have hafter := hsound.pushes size 0 _ hpush ((if_pos (by omega)).trans (if_pos henough))
  exact hnot ((List.pairwise_cons.mp hafter.apart).1 r hr)

end Inv

/-! ## The runs -/

/-- The top rounded up is not below it, unless it wraps. -/
theorem alignUp_spec {sp align : Nat} (halign : align ∣ 2 ^ 63) (hsp : sp < 2 ^ 64) :
    State.alignUp sp align = 0 ∨ sp ≤ State.alignUp sp align := by
  have hpos : 0 < align := Nat.pos_of_dvd_of_pos halign (Nat.two_pow_pos 63)
  have hle : align ≤ 2 ^ 63 := Nat.le_of_dvd (Nat.two_pow_pos 63) halign
  obtain ⟨_, hlt⟩ := blockOf_spec hpos ((sp + (align - 1)) % 2 ^ 64)
  unfold State.alignUp at *
  by_cases hwrap : sp + (align - 1) < 2 ^ 64
  · rw [Nat.mod_eq_of_lt hwrap] at hlt ⊢
    exact .inr (by omega)
  · refine .inl ?_
    have hsmall : (sp + (align - 1)) % 2 ^ 64 < align := by
      rw [Nat.mod_def]
      omega
    unfold blockOf
    rw [Nat.div_eq_of_lt hsmall, Nat.zero_mul]

/-- The top of the stack is an address. -/
theorem Inv.sp_lt {s : State} (h : Inv L s) : s.sp < 2 ^ 64 := by
  obtain ⟨bloc, rest, _, hgood⟩ := h.good
  exact hgood.upper.trans_le (hgood.blocs bloc List.mem_cons_self).fits

/-- What one step does to the invariant: it keeps it if it meets the condition, and a step that
does not is not right. -/
theorem inv_step_iff {s t : State} {a : Action} (h : Inv L s) (hstep : step L s a = some t) :
    (Fits L s a → Inv L t) ∧ (StepSound L s a t → Fits L s a) := by
  cases a with
  | dataPush size fresh =>
      simp only [step] at hstep
      split at hstep
      case isFalse => cases hstep
      case isTrue =>
        obtain ⟨hkeep, hback⟩ := h.dataPush_iff s.sp (.inr (Nat.le_refl s.sp)) hstep
        exact ⟨fun hfits => hkeep ⟨hfits, fun _ => rfl⟩, fun hright => (hback hright.sound).1⟩
  | dataPushAlign count align fresh =>
      simp only [step] at hstep
      split at hstep
      case isFalse => cases hstep
      case isTrue hguard =>
        obtain ⟨hkeep, hback⟩ := h.dataPush_iff _ (alignUp_spec hguard.2 h.sp_lt) hstep
        exact ⟨hkeep, fun hright => hback hright.sound⟩
  | taskAlloc size fresh =>
      simp only [step] at hstep
      split at hstep
      case isFalse => cases hstep
      case isTrue hlt =>
        obtain ⟨hkeep, hback⟩ := h.taskAlloc_iff hlt hstep
        exact ⟨hkeep, fun hright => hback hright.sound⟩
  | framePush noUnlink bloc =>
      simp only [step] at hstep
      split at hstep
      case isFalse => cases hstep
      case isTrue hbloc =>
        cases hstep
        exact ⟨fun _ => h.framePush hbloc noUnlink, fun _ => trivial⟩
  | framePop => exact ⟨fun hfits => h.framePop hfits hstep, h.popFits hstep⟩

theorem inv_initial {s : State} (h : Initial L s) : Inv L s := by
  obtain ⟨bloc, hblocs, hdvd, hpos, hfits, hlow, hhigh, noUnlink, hframes⟩ := h.blocs
  have hgood : GoodStack L s.sp [bloc] [] := by
    refine ⟨bloc, [], rfl, fun b hb => ?_, hlow, hhigh, fun r hr => absurd hr List.not_mem_nil,
      List.Pairwise.nil⟩
    obtain rfl := List.mem_singleton.mp hb
    exact ⟨hdvd, hpos, hfits⟩
  refine ⟨?_, fun b hb => ?_, ?_, fun f hf => ?_, ?_⟩
  · rw [hblocs, h.regions]
    exact hgood
  · rw [h.free] at hb
    exact absurd hb List.not_mem_nil
  · rw [hblocs, h.free]
    exact List.nodup_singleton bloc
  · rw [hframes] at hf
    obtain rfl := List.mem_singleton.mp hf
    rw [hblocs]
    exact ⟨hgood, List.mem_singleton_self bloc, List.suffix_refl _⟩
  · rw [hframes]
    exact List.pairwise_singleton _ _

/-- A step that meets the condition is right. -/
theorem Inv.stepSound {s t : State} {a : Action} (h : Inv L s) (hstep : step L s a = some t)
    (hfits : Fits L s a) : StepSound L s a t := by
  have hinv := (inv_step_iff h hstep).1 hfits
  refine ⟨hinv.isSound, ?_, fun size fresh u hpush hnext =>
    ((inv_step_iff hinv hnext).1 hpush).isSound⟩
  rintro rfl
  exact h.popExact hfits hstep

/-- In every run whose pushes and pops fit the stack is sound, and the next step is right exactly
when it fits. -/
theorem stack_sound_of_fits {s : State} (hs : (system L).ReachableWhen (Fits L) s) :
    StackSound L s ∧ ∀ a t, step L s a = some t → (StepSound L s a t ↔ Fits L s a) := by
  have h : Inv L s := hs.invariant (fun _ hinit => inv_initial hinit)
    fun _ _ _ hinv hok hstep => (inv_step_iff hinv hstep).1 hok
  exact ⟨h.isSound, fun a t hstep => ⟨(inv_step_iff h hstep).2, h.stepSound hstep⟩⟩

/-- The blocks of the library. -/
def defaultLayout : Layout where
  blocSize := 2 ^ 20
  header := 32
  blocSize_dvd := by decide
  header_pos := by decide
  header_lt := by decide

def initialState : State :=
  ⟨2 ^ 20 + 32, [2 ^ 20], [], [⟨2 ^ 20 + 32, 2 ^ 20, false, [], [2 ^ 20]⟩], []⟩

theorem initial_initialState : Initial defaultLayout initialState where
  blocs := ⟨2 ^ 20, rfl, ⟨1, rfl⟩, by decide, by decide, by decide, by decide, false, rfl⟩
  free := rfl
  regions := rfl

/-- A frame is filled, a task goes to a fresh block, and the frame is popped. -/
def frameRun : List Action :=
  [.framePush false (2 ^ 20), .dataPush 1048000 0, .taskAlloc 4096 (2 ^ 21),
    .dataPushAlign 100 64 0, .framePop]

theorem stack_sound_frameRun :
    ∃ s, (system defaultLayout).replay (Fits defaultLayout) initialState frameRun = some s ∧
      s.free = [2 ^ 21] ∧ StackSound defaultLayout s := by
  let s := ((system defaultLayout).replay (Fits defaultLayout) initialState frameRun).get
    (by decide)
  have hrun : (system defaultLayout).replay (Fits defaultLayout) initialState frameRun = some s :=
    (Option.some_get _).symm
  exact ⟨s, hrun, rfl, (stack_sound_of_fits (.replay (.start initial_initialState) hrun)).1⟩

/-- Two tasks of half a block: the second one gets a fresh block, and the top leaves it. Data, a
frame and its pop: the data is given back with it, and pushed data overlaps it. -/
theorem not_stack_sound :
    (¬ ∀ s, (system defaultLayout).Reachable s → StackSound defaultLayout s) ∧
      ∃ s, (system defaultLayout).run initialState
        [.dataPush 64 0, .framePush false (2 ^ 20), .framePop, .dataPush 64 0] = some s ∧
          ¬ s.regions.Pairwise Region.Apart := by
  refine ⟨fun hall => ?_, _, rfl, by decide⟩
  let s := ((system defaultLayout).run initialState
    [.taskAlloc (2 ^ 19) 0, .taskAlloc (2 ^ 19) (2 ^ 21)]).get (by decide)
  have hrun : (system defaultLayout).run initialState
      [.taskAlloc (2 ^ 19) 0, .taskAlloc (2 ^ 19) (2 ^ 21)] = some s := (Option.some_get _).symm
  obtain ⟨bloc, hbloc, _, htop⟩ := (hall s (.replay (.start initial_initialState) hrun)).top
  obtain rfl : 2 ^ 21 = bloc := Option.some.inj (show some (2 ^ 21) = some bloc from hbloc)
  exact absurd htop (by decide)

end Xkblas.Sched.FrameStack
