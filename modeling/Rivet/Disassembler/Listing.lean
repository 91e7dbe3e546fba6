import Rivet.Riscv32.Decode
import Rivet.X86.Decode

/-!
# The main loop of the disassembler

`rivet-disas` walks a flat image with the decoder of the chosen architecture.
A decoder that needs more bytes than are left makes the loop print one raw
byte.  The loop stays synchronised with a sequence of chunks as soon as the
decoder consumes each chunk exactly, whatever follows it.
-/

namespace Rivet.Disassembler

open CLib Assembler

/-- `riv_arch_disas.decode`: the number of bytes consumed and the text. -/
abbrev Decoder := RivU32 → List RivU8 → Except DecodeStop (ℕ × CStr)

def archDecode : Arch → Decoder
  | .riscv32, pc, bytes => (fun r => (r.1, r.2.text)) <$> Riscv32.rvDecode pc bytes
  | .x86_64, pc, bytes => (fun r => (r.1, r.2.text)) <$> X86.x86Decode pc bytes

def pickArch : Option CStr → Option Arch
  | none => some .riscv32
  | some name =>
    if name = "riscv32".toList ∨ name = "rv32".toList then some .riscv32
    else if name = "x86_64".toList ∨ name = "amd64".toList then some .x86_64
    else none

/-- One line of the listing: an instruction, or one byte no decoder took. -/
inductive ListingLine where
  | insn (pc : RivU32) (bytes : List RivU8) (text : CStr)
  | raw (pc : RivU32) (b : RivU8)
  deriving DecidableEq, Repr

def ListingLine.bytes : ListingLine → List RivU8
  | .insn _ bytes _ => bytes
  | .raw _ b => [b]

def ListingLine.text : ListingLine → CStr
  | .insn pc bytes text =>
    let hexCols := min bytes.length 6
    showHexPad 8 pc.toNat ++ ":  ".toList ++
      (bytes.take hexCols).flatMap (fun b => showHexPad 2 b.toNat) ++
      List.replicate (2 * (6 - hexCols)) ' ' ++ "   ".toList ++ text
  | .raw pc b =>
    showHexPad 8 pc.toNat ++ ":  ".toList ++ showHexPad 2 b.toNat ++
      List.replicate 9 ' ' ++ "   .byte  0x".toList ++ showHexPad 2 b.toNat

def lineAt (decode : Decoder) (pc : RivU32) (b : RivU8) (rest : List RivU8) :
    Except DecodeStop ListingLine :=
  match decode pc (b :: rest) with
  | .ok (n + 1, text) => .ok (.insn pc (b :: rest.take n) text)
  | .ok (0, _) => .ok (.raw pc b)
  | .error .short => .ok (.raw pc b)
  | .error .fault => .error .fault

/-- The loop of `main`. -/
def listing (decode : Decoder) (pc : RivU32) :
    List RivU8 → Except DecodeStop (List ListingLine)
  | [] => .ok []
  | b :: rest => do
    let line ← lineAt decode pc b rest
    let lines ← listing decode (pc + BitVec.ofNat 32 line.bytes.length)
      (rest.drop (line.bytes.length - 1))
    .ok (line :: lines)
termination_by bytes => bytes.length
decreasing_by
  rw [List.length_drop, List.length_cons]
  omega

/-- `main` after its arguments have been read. -/
def disassemble (march : Option CStr) (base : RivU32) (image : List RivU8) :
    Option (Except DecodeStop (List CStr)) :=
  (pickArch march).map fun arch =>
    (List.map ListingLine.text) <$> listing (archDecode arch) base image

/-! ## Synchronisation -/

/-- A chunk that the decoder consumes exactly, at any address and whatever
follows. -/
def TakesWhole (decode : Decoder) (chunk : List RivU8) : Prop :=
  chunk ≠ [] ∧ ∀ (pc : RivU32) (rest : List RivU8), ∃ text,
    decode pc (chunk ++ rest) = .ok (chunk.length, text)

variable {decode : Decoder}

theorem listing_chunk {chunk : List RivU8} (h : TakesWhole decode chunk)
    (pc : RivU32) (rest : List RivU8) : ∃ text, listing decode pc (chunk ++ rest) =
      (ListingLine.insn pc chunk text :: ·) <$>
        listing decode (pc + BitVec.ofNat 32 chunk.length) rest := by
  obtain ⟨hne, hdecode⟩ := h
  obtain ⟨text, htext⟩ := hdecode pc rest
  obtain ⟨b, bs, rfl⟩ := List.exists_cons_of_ne_nil hne
  have hline : lineAt decode pc b (bs ++ rest) = .ok (.insn pc (b :: bs) text) := by grind [lineAt]
  refine ⟨text, ?_⟩
  rw [List.cons_append, listing, hline]
  simp only [Exec.ok_bind, ListingLine.bytes, List.length_cons, Nat.add_sub_cancel, List.drop_left]
  cases listing decode (pc + BitVec.ofNat 32 (bs.length + 1)) rest <;> rfl

theorem listing_chunks {chunks : List (List RivU8)}
    (h : ∀ chunk ∈ chunks, TakesWhole decode chunk) (pc : RivU32) (rest : List RivU8) :
    ∃ lines : List ListingLine, lines.map ListingLine.bytes = chunks ∧
      listing decode pc (chunks.flatten ++ rest) = (lines ++ ·) <$>
          listing decode (pc + BitVec.ofNat 32 chunks.flatten.length) rest := by
  induction chunks generalizing pc with
  | nil => simp
  | cons chunk chunks ih =>
    obtain ⟨text, htext⟩ :=
      listing_chunk (h chunk List.mem_cons_self) pc (chunks.flatten ++ rest)
    obtain ⟨lines, hbytes, hlines⟩ :=
      ih (fun c hc => h c (List.mem_cons_of_mem chunk hc))
        (pc + BitVec.ofNat 32 chunk.length)
    refine ⟨.insn pc chunk text :: lines, by rw [List.map_cons, hbytes]; rfl, ?_⟩
    simp [htext, hlines, BitVec.ofNat_add, BitVec.add_assoc]

end Rivet.Disassembler
