/-!
# HostCall — the operations that the host offers to a contract

Each is called like a function and compiles to a single instruction. The names in the source and in
the code differ.
-/

namespace ContractCompiler

set_option autoImplicit false

structure HostCall where
  name : String
  asmName : String
  /-- The number of arguments. -/
  arity : Nat
  returnsValue : Bool
  deriving DecidableEq, Repr

namespace HostCall

def catalogue : List HostCall :=
  [
    ⟨"Get_A1", "get_A1", 0, true⟩,
    ⟨"Get_A2", "get_A2", 0, true⟩,
    ⟨"Get_A3", "get_A3", 0, true⟩,
    ⟨"Get_A4", "get_A4", 0, true⟩,
    ⟨"Get_B1", "get_B1", 0, true⟩,
    ⟨"Get_B2", "get_B2", 0, true⟩,
    ⟨"Get_B3", "get_B3", 0, true⟩,
    ⟨"Get_B4", "get_B4", 0, true⟩,
    ⟨"Set_A1", "set_A1", 1, false⟩,
    ⟨"Set_A2", "set_A2", 1, false⟩,
    ⟨"Set_A3", "set_A3", 1, false⟩,
    ⟨"Set_A4", "set_A4", 1, false⟩,
    ⟨"Set_A1_A2", "set_A1_A2", 2, false⟩,
    ⟨"Set_A3_A4", "set_A3_A4", 2, false⟩,
    ⟨"Set_B1", "set_B1", 1, false⟩,
    ⟨"Set_B2", "set_B2", 1, false⟩,
    ⟨"Set_B3", "set_B3", 1, false⟩,
    ⟨"Set_B4", "set_B4", 1, false⟩,
    ⟨"Set_B1_B2", "set_B1_B2", 2, false⟩,
    ⟨"Set_B3_B4", "set_B3_B4", 2, false⟩,
    ⟨"Clear_A", "clear_A", 0, false⟩,
    ⟨"Clear_B", "clear_B", 0, false⟩,
    ⟨"Clear_A_And_B", "clear_A_B", 0, false⟩,
    ⟨"Copy_A_From_B", "copy_A_From_B", 0, false⟩,
    ⟨"Copy_B_From_A", "copy_B_From_A", 0, false⟩,
    ⟨"Check_A_Is_Zero", "check_A_Is_Zero", 0, true⟩,
    ⟨"Check_B_Is_Zero", "check_B_Is_Zero", 0, true⟩,
    ⟨"Check_A_Equals_B", "check_A_equals_B", 0, true⟩,
    ⟨"Swap_A_and_B", "swap_A_and_B", 0, false⟩,
    ⟨"OR_A_with_B", "OR_A_with_B", 0, false⟩,
    ⟨"OR_B_with_A", "OR_B_with_A", 0, false⟩,
    ⟨"AND_A_with_B", "AND_A_with_B", 0, false⟩,
    ⟨"AND_B_with_A", "AND_B_with_A", 0, false⟩,
    ⟨"XOR_A_with_B", "XOR_A_with_B", 0, false⟩,
    ⟨"XOR_B_with_A", "XOR_B_with_A", 0, false⟩,
    ⟨"Add_A_To_B", "add_A_to_B", 0, false⟩,
    ⟨"Add_B_To_A", "add_B_to_A", 0, false⟩,
    ⟨"Sub_A_From_B", "sub_A_from_B", 0, false⟩,
    ⟨"Sub_B_From_A", "sub_B_from_A", 0, false⟩,
    ⟨"Mul_A_By_B", "mul_A_by_B", 0, false⟩,
    ⟨"Mul_B_By_A", "mul_B_by_A", 0, false⟩,
    ⟨"Div_A_By_B", "div_A_by_B", 0, false⟩,
    ⟨"Div_B_By_A", "div_B_by_A", 0, false⟩,
    ⟨"MD5_A_To_B", "MD5_A_to_B", 0, false⟩,
    ⟨"Check_MD5_A_With_B", "check_MD5_A_with_B", 0, true⟩,
    ⟨"HASH160_A_To_B", "HASH160_A_to_B", 0, false⟩,
    ⟨"Check_HASH160_A_With_B", "check_HASH160_A_with_B", 0, true⟩,
    ⟨"SHA256_A_To_B", "SHA256_A_to_B", 0, false⟩,
    ⟨"Check_SHA256_A_With_B", "check_SHA256_A_with_B", 0, true⟩,
    ⟨"Get_Block_Timestamp", "get_Block_Timestamp", 0, true⟩,
    ⟨"Get_Creation_Timestamp", "get_Creation_Timestamp", 0, true⟩,
    ⟨"Get_Last_Block_Timestamp", "get_Last_Block_Timestamp", 0, true⟩,
    ⟨"Put_Last_Block_Hash_In_A", "put_Last_Block_Hash_In_A", 0, false⟩,
    ⟨"A_To_Tx_After_Timestamp", "A_to_Tx_after_Timestamp", 1, false⟩,
    ⟨"Get_Type_For_Tx_In_A", "get_Type_for_Tx_in_A", 0, true⟩,
    ⟨"Get_Amount_For_Tx_In_A", "get_Amount_for_Tx_in_A", 0, true⟩,
    ⟨"Get_Timestamp_For_Tx_In_A", "get_Timestamp_for_Tx_in_A", 0, true⟩,
    ⟨"Get_Random_Id_For_Tx_In_A", "get_Ticket_Id_for_Tx_in_A", 0, true⟩,
    ⟨"Message_From_Tx_In_A_To_B", "message_from_Tx_in_A_to_B", 0, false⟩,
    ⟨"B_To_Address_Of_Tx_In_A", "B_to_Address_of_Tx_in_A", 0, false⟩,
    ⟨"B_To_Address_Of_Creator", "B_to_Address_of_Creator", 0, false⟩,
    ⟨"Get_Current_Balance", "get_Current_Balance", 0, true⟩,
    ⟨"Get_Previous_Balance", "get_Previous_Balance", 0, true⟩,
    ⟨"Send_To_Address_In_B", "send_to_Address_in_B", 1, false⟩,
    ⟨"Send_All_To_Address_In_B", "send_All_to_Address_in_B", 0, false⟩,
    ⟨"Send_Old_To_Address_In_B", "send_Old_to_Address_in_B", 0, false⟩,
    ⟨"Send_A_To_Address_In_B", "send_A_to_Address_in_B", 0, false⟩,
    ⟨"Add_Minutes_To_Timestamp", "add_Minutes_to_Timestamp", 2, true⟩
  ]

def find? (name : String) : Option HostCall :=
  catalogue.find? (·.name == name)

end HostCall

end ContractCompiler
