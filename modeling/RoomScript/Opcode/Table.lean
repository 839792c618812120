import RoomScript.Operand

/-!
# The opcode table

The instructions of the second engine version: how many bytes each opcode takes and what its
operands are.  An opcode past the end of a list has no size or no signature.
-/

namespace RoomScript.Opcode

/-! ## Data -/

/-- The instruction sizes in bytes by opcode, the opcode byte counted. -/
def sizes : List Nat := [
  1, 2, 1, 4, 4, 2, 4, 4, 1, 4, 3, 1, 1, 6, 2, 4, 2, 4, 2, 4, 6, 2, 2, 6, 2, 2, 2, 6, 1, 4, 1, 1,
  1, 4, 4, 6, 4, 3, 6, 4, 1, 2, 1, 6, 20, 38, 3, 4, 1, 1, 8, 8, 4, 3, 12, 4, 3, 8, 16, 32, 2, 3,
  6, 4, 8, 10, 1, 4, 22, 5, 10, 2, 16, 8, 2, 3, 5, 22, 22, 4, 4, 6, 6, 6, 22, 6, 4, 8, 4, 4, 2, 2,
  3, 2, 2, 2, 14, 4, 2, 1, 16, 2, 1, 28, 40, 30, 6, 4, 1, 4, 6, 2, 1, 1, 16, 8, 4, 22, 3, 4, 6, 1,
  16, 16, 6, 6, 6, 6, 2, 3, 3, 1, 2, 6, 1, 1, 3, 1, 6, 6, 8, 24, 24]

/-- The signatures by opcode.  An empty one marks an opcode that is not in use. -/
def signatureTexts : List String := [
  "nop", "evt_end", "evt_next", "evt_chain", "evt_exec:ugp", "evt_kill", "if:uL", "else:u@",
  "endif", "sleep:uU", "sleeping:U", "wsleep", "wsleeping", "for:uLU", "next", "while:uL",
  "ewhile", "do:uL", "edwhile:'", "switch:uL", "case:uLU", "default", "eswitch", "goto:uuu~",
  "gosub:p", "return", "break", "for2", "break_point", "work_copy", "nop_1E", "nop_1F", "nop_20",
  "ck:fuu", "set:fuu", "cmp:uvcI", "save:vI", "copy:vv", "calc:uovI", "calc2:ovv", "sce_rnd",
  "cut_chg", "cut_old", "message_on:u3uuu", "aot_set:0sauuIIIIuuuuuu",
  "obj_model_set:1uuuuUUIIIIIIIIIIIIuuuu", "work_set:wu", "speed_set:uI", "add_speed",
  "add_aspeed", "pos_set:uIII", "dir_set:uIII", "member_set", "member_set2:uv", "se_on:uIIIII",
  "sca_id_set", "flr_set", "dir_ck", "sce_espr_on:uUUUIIII",
  "door_aot_se:0sauuIIIIIIIIuuuuuuuutu", "cut_auto", "member_copy:vu", "member_cmp", "plc_motion",
  "plc_dest:uuuII", "plc_neck:uIIIuu", "plc_ret", "plc_flg:uU", "sce_em_set:u2euuuuuuIIIIUU",
  "col_chg_set", "aot_reset:0sauuuuuu", "aot_on:0", "super_set:uuuIIIIII", "super_reset:uIII",
  "plc_gun", "cut_replace", "sce_espr_kill", "", "item_aot_set:0sauuIIUUTUUuu", "sce_key_ck:uU",
  "sce_trg_ck:uU", "sce_bgm_control", "sce_espr_control", "sce_fade_set",
  "sce_espr3d_on:uUUUIIIIIII", "member_calc:oUI", "member_calc2:ouu", "sce_bgmtbl_set:uuuUU",
  "plc_rot:uU", "xa_on:uU", "weapon_chg", "plc_cnt", "sce_shake_on", "mizu_div_set",
  "keep_item_ck:t", "xa_vol", "kage_set", "cut_be_set", "sce_item_lost:t", "plc_gun_eff",
  "sce_espr_on2", "sce_espr_kill2", "plc_stop", "aot_set_4p:usauuIIIIIIIIuuuuuu",
  "door_aot_set_4p:0sauuIIIIIIIIIIIIuuuuuuuutu", "item_aot_set_4p:0sauuIIIIIIIITUUuu",
  "light_pos_set:uuuI", "light_kido_set:uI", "rbj_reset", "sce_scr_move:uI", "parts_set:uuuI",
  "movie_on", "splc_ret", "splc_sce", "super_on", "mirror_set", "sce_fade_adjust",
  "sce_espr3d_on2", "sce_item_get", "sce_line_start", "sce_line_main", "sce_line_end",
  "sce_parts_bomb", "sce_parts_down", "light_color_set", "light_pos_set2:uuuI",
  "light_kido_set2:uuuU", "light_color_set2", "se_vol", "", "", "", "", "", "poison_ck",
  "poison_clr", "sce_item_ck_lost:tu", "", "nop_8a", "nop_8b", "nop_8c", "", ""]

/-- The signatures by opcode, cut into mnemonic and operands. -/
def signatures : Array Signature :=
  (signatureTexts.map Signature.parse).toArray

/-- The instruction sizes by opcode, for direct access. -/
def sizeTable : Array Nat :=
  sizes.toArray

/-! ## Opcodes that other tables refer to -/

def gosub : UInt8 := 0x18
def workCopy : UInt8 := 0x1D
def check : UInt8 := 0x21
def compare : UInt8 := 0x23
def aotSet : UInt8 := 0x2C
def workSet : UInt8 := 0x2E
def memberCompare : UInt8 := 0x3E
def aotReset : UInt8 := 0x46
def keepItemCheck : UInt8 := 0x5E
def aotSet4p : UInt8 := 0x67

/-! ## Queries -/

/-- The size of an instruction, or zero when it is not known. -/
def size (opcode : UInt8) : Nat :=
  sizeTable.getD opcode.toNat 0

/-- The signature of an opcode; opcodes outside the table have none. -/
def signatureText (opcode : UInt8) : String :=
  signatureTexts.getD opcode.toNat ""

/-- The parsed signature of an opcode. -/
def signature (opcode : UInt8) : Signature :=
  signatures.getD opcode.toNat ⟨"", []⟩

/-- The first opcode in use with a mnemonic. -/
def find? (mnemonic : String) : Option UInt8 :=
  (signatures.findIdx? fun s => !s.isReserved && s.mnemonic == mnemonic).map UInt8.ofNat

/-- Instructions that may follow one another in the condition of a block. -/
def isCondition (opcode : UInt8) : Bool :=
  opcode ∈ [check, compare, memberCompare, keepItemCheck, workCopy]

end RoomScript.Opcode
