import Raveil.Tiling.Assembly

/-! A grid kernel run tile by tile on halos computes the untiled reference. -/
namespace Raveil.Tiling
open Raveil.Lib Raveil.Graph

section Halo

variable {grid : Grid} {tile : Tile} {mode : Boundary} {value : Descriptor}

/-- The words around a tile. -/
def haloWords (grid : Grid) (mode : Boundary) (tile : Tile) : List ℕ :=
  (List.range 324).map fun t => wordAt grid mode (tile.row - 1 + (t / 18 : ℕ)) (tile.column - 1 + (t % 18 : ℕ))

theorem halo_eq : halo grid tile mode = .ok (haloWords grid mode tile) := by
  unfold halo
  rw [mapM_eq_map fun _ _ => sample_eq]
  unfold cells haloWords
  rw [flatMap_rowMajor, List.map_map]
  rfl

theorem length_haloWords : (haloWords grid mode tile).length = 324 := by
  rw [haloWords, List.length_map, List.length_range]

/-- In a halo the loads of a cell find what the reference loads from that cell of the grid. -/
theorem halo_reads (haffine : value.affine = tileAffine) {row column : ℕ} (hr : row < 16) (hc : column < 16) :
    Reads value (haloWords grid mode tile) row column
      (cellLoad grid mode (tile.row + row : ℕ) (tile.column + column : ℕ)) := by
  intro dr dc hdr hdc
  obtain ⟨a, ha⟩ := Int.eq_ofNat_of_zero_le (show 0 ≤ (row : ℤ) + 1 + dr by omega)
  obtain ⟨b, hb⟩ := Int.eq_ofNat_of_zero_le (show 0 ≤ (column : ℤ) + 1 + dc by omega)
  have haddress : nodeAddress (.relative dr dc) (centerOf value.affine row column) value.affine.inputStride =
      ((a * 18 + b : ℕ) : ℤ) := by
    rw [haffine]
    unfold nodeAddress centerOf tileAffine
    dsimp only
    push_cast
    omega
  have hlt : a * 18 + b < 324 := by omega
  have hb18 : b < 18 := by omega
  rw [haddress, readWord, pyGet?_natCast]
  unfold haloWords cellLoad
  rw [List.getElem?_map, List.getElem?_range hlt, Option.map_some, div_row hb18, mod_row hb18]
  dsimp only
  congr 2 <;> omega

end Halo

section Tiled

variable {sha256 : List UInt8 → Digest} {kernel : Kernel} {descriptor : Descriptor} {grid : Grid} {mode : Boundary}

theorem compileKernel_eq_ok (h : compileKernel sha256 kernel = .ok descriptor) :
    descriptor = kernel.descriptor ∧ ∃ program, compileGraph sha256 descriptor = .ok program ∧
      compileDescriptor sha256 descriptor = .ok program := by
  obtain ⟨program, hp, heq⟩ := except_bind_eq_ok.mp h
  cases heq
  refine ⟨rfl, program, hp, ?_⟩
  obtain ⟨program', hc, hrest⟩ := except_bind_eq_ok.mp hp
  obtain ⟨profile, -, hsame⟩ := except_bind_eq_ok.mp hrest
  cases hsame
  exact hc

theorem compileDescriptor_validated {program : Program} (h : compileDescriptor sha256 descriptor = .ok program) :
    validateDescriptor descriptor = .ok () := (check_then_eq_ok.mp h).1

theorem length_liveAfter_le (nodes : List Node) (index : ℕ) : (liveAfter nodes index).length ≤ nodes.length := by
  unfold liveAfter
  refine (List.length_filter_le _ _).trans ?_
  rw [List.length_map]
  exact (List.length_filter_le _ _).trans (List.length_take_le' _ _)

/-- A kernel of no more nodes than registers is compiled, whatever the hash. -/
theorem compileKernel_small (hv : validateDescriptor kernel.descriptor = .ok ()) (hsmall : kernel.nodes.length ≤ 8) :
    compileKernel sha256 kernel = .ok kernel.descriptor := by
  obtain ⟨body, id, x, h⟩ := validateDescriptor_eq_ok hv
  rcases compileDescriptor_cases sha256 h hv with ⟨-, index, hbig⟩ | ⟨program, t, ws, r, hok, hc⟩
  · have hle := length_liveAfter_le (body ++ [⟨id, .store x⟩]) index
    rw [h.perm.length_eq] at hle
    exact absurd (hbig.trans_le hle) (Nat.not_lt.mpr hsmall)
  · have hprofile : ∃ profile, profileFor sha256 kernel.descriptor.affine = .ok profile := ⟨_, rfl⟩
    obtain ⟨profile, hprofile⟩ := hprofile
    rw [← hc.affine] at hprofile
    exact except_bind_eq_ok.mpr ⟨program, except_bind_eq_ok.mpr ⟨program, hok,
      except_bind_eq_ok.mpr ⟨profile, hprofile, rfl⟩⟩, rfl⟩

/-- What holds of a kernel on a grid, where the reference recurses at most `fuel` deep. -/
structure Tiled (sha256 : List UInt8 → Digest) (descriptor : Descriptor) (grid : Grid) (mode : Boundary) (fuel : ℕ)
    (halos outputs : List (List ℕ)) (words : List ℕ) : Prop where
  sampled : (layout grid).mapM (fun tile => halo grid tile mode) = .ok halos
  oracle : halos.mapM (graphOracle descriptor) = .ok outputs
  fallback : ∃ program, compileGraph sha256 descriptor = .ok program ∧
    halos.mapM (softwareFallback sha256 program.toImage) = .ok outputs
  untiled : reference sha256 fuel grid descriptor mode = .ok words
  length : words.length = grid.rows * grid.columns
  assembles : assembled grid.rows grid.columns (layout grid) outputs = .ok (words.map some)

theorem halo_tiling (sha256 : List UInt8 → Digest) (grid : Grid) (mode : Boundary) (kernel : Kernel)
    (descriptor : Descriptor) (hk : compileKernel sha256 kernel = .ok descriptor) (fuel : ℕ)
    (hfuel : descriptor.nodes.length ≤ fuel) :
    ∃ halos outputs words, Tiled sha256 descriptor grid mode fuel halos outputs words := by
  obtain ⟨rfl, program, hgraph, hcompile⟩ := compileKernel_eq_ok hk
  have hv := compileDescriptor_validated hcompile
  obtain ⟨body, id, x, h⟩ := validateDescriptor_eq_ok hv
  have hv1 : kernel.descriptor.schema ≠ .v1 := by simp [Kernel.descriptor]
  have haffine : kernel.descriptor.affine = tileAffine := rfl
  -- the value of every cell of the plane
  have hvalue (at_ : ℕ × ℕ) : ∃ w memo', evaluate grid mode kernel.descriptor.nodes at_.1 at_.2 fuel (fun _ => none) x =
      .ok (w, memo') ∧ Denotes kernel.descriptor.nodes (cellLoad grid mode at_.1 at_.2) x w :=
    reference_finds h hv1 hfuel
  choose value memo' hev hdenotes using hvalue
  have houtput (tile : Tile) : ∃ val : ℕ → ℕ,
      graphOracle kernel.descriptor (haloWords grid mode tile) = .ok ((List.range 256).map val) ∧
      ∀ row < 16, ∀ column < 16, Denotes kernel.descriptor.nodes
        (cellLoad grid mode (tile.row + row : ℕ) (tile.column + column : ℕ)) x (val (row * 16 + column)) :=
    graphOracle_denotes h hv hv1 haffine length_haloWords fun row hr column hc => halo_reads haffine hr hc
  choose val horacle hval using houtput
  have hfallback (tile : Tile) : softwareFallback sha256 program.toImage (haloWords grid mode tile) =
      .ok ((List.range 256).map (val tile)) := by
    obtain ⟨t, ws, r, hc⟩ := compiled_of_eq_ok h hv hcompile
    have hcorner : ¬ MissedCorner kernel.descriptor := by
      rintro ⟨heq, -⟩
      rw [haffine] at heq
      exact absurd heq (by decide)
    obtain ⟨output, ho, hf⟩ := fallback_eq_oracle h hv hc (@length_haloWords grid tile mode)
      fun index hi => (oracleReads_mem h hcorner hi).2
    rw [horacle] at ho
    cases ho
    exact hf
  refine ⟨(layout grid).map (haloWords grid mode), (layout grid).map fun tile => (List.range 256).map (val tile),
    (cells grid.rows grid.columns).map value, ?_⟩
  refine ⟨mapM_eq_map fun tile _ => halo_eq, ?_, ⟨program, hgraph, ?_⟩, ?_, ?_, ?_⟩
  · rw [List.mapM_map]
    exact mapM_eq_map fun tile _ => horacle tile
  · rw [List.mapM_map]
    exact mapM_eq_map fun tile _ => hfallback tile
  · refine except_bind_eq_ok.mpr ⟨program, hgraph, ?_⟩
    rw [last_store h hv]
    exact mapM_eq_map fun at_ _ => except_bind_eq_ok.mpr ⟨_, hev at_, rfl⟩
  · rw [List.length_map, cells, flatMap_rowMajor, List.length_map, List.length_range]
  · apply assembled_eq
    intro tile htile r hr k hk
    obtain ⟨hrows, hcolumns⟩ := layout_le htile
    have hr16 : r < 16 := by omega
    have hk16 : k < 16 := by omega
    rw [List.getElem?_map, List.getElem?_range (show r * 16 + k < 256 by omega), Option.map_some]
    exact congrArg some ((hval tile r hr16 k hk16).unique h.nodup (hdenotes (tile.row + r, tile.column + k)))

/-- A horizontal blur on one row of three cells, less than a tile. -/
def blur : Kernel where
  graphId := "blur"
  nodes := [⟨"sum", .binary .add ["west", "east"]⟩, ⟨"west", .load (.relative 0 (-1))⟩,
    ⟨"east", .load (.relative 0 1)⟩, ⟨"out", .store "sum"⟩]

def narrow : Grid where
  rows := 1
  columns := 3
  words := [5, 7, 11]
  rows_pos := by decide
  rows_le := by decide
  columns_pos := by decide
  columns_le := by decide
  length_words := rfl
  words_lt := by decide

theorem halo_tiling_blur : compileKernel Sha256.digest blur = .ok blur.descriptor ∧
    ∃ halos outputs words, Tiled Sha256.digest blur.descriptor narrow .wrap 4 halos outputs words := by
  have hk : compileKernel Sha256.digest blur = .ok blur.descriptor := compileKernel_small (by decide +kernel) (by decide)
  exact ⟨hk, halo_tiling Sha256.digest narrow .wrap blur blur.descriptor hk 4 (by decide)⟩

end Tiled

end Raveil.Tiling
