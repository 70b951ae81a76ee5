import MintWatch.Interface.Descriptor
/-!
# The bundled interface

The interface of a token contract with a mint function, used where no other is
configured.
-/

namespace MintWatch
namespace Interface

def bundled : Interface :=
  [.constructor [.plain "name" "string", .plain "symbol" "string"],
   .function "mintNFT" [.plain "recipient" "address", .plain "tokenURI" "string"],
   .function "balanceOf" [.plain "owner" "address"],
   .function "ownerOf" [.plain "tokenId" "uint256"],
   .function "tokenURI" [.plain "tokenId" "uint256"],
   .function "approve" [.plain "to" "address", .plain "tokenId" "uint256"],
   .function "getApproved" [.plain "tokenId" "uint256"],
   .function "setApprovalForAll" [.plain "operator" "address", .plain "approved" "bool"],
   .function "isApprovedForAll" [.plain "owner" "address", .plain "operator" "address"],
   .function "transferFrom"
     [.plain "from" "address", .plain "to" "address", .plain "tokenId" "uint256"],
   .function "safeTransferFrom"
     [.plain "from" "address", .plain "to" "address", .plain "tokenId" "uint256",
      .plain "data" "bytes"],
   .event "Transfer"
     [.plain "from" "address", .plain "to" "address", .plain "tokenId" "uint256"],
   .event "Approval"
     [.plain "owner" "address", .plain "approved" "address", .plain "tokenId" "uint256"]]

end Interface
end MintWatch
