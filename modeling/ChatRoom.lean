import ChatRoom.Config.Load
import ChatRoom.Main
import ChatRoom.Session.Gathering
import ChatRoom.Session.Policy
import ChatRoom.Text.Hex
import ChatRoom.Proofs.ArenaOrder
import ChatRoom.Proofs.HandleReuse
import ChatRoom.Proofs.Hall
import ChatRoom.Proofs.Seating
import ChatRoom.Proofs.ServerSteps
import ChatRoom.Proofs.Situations
import ChatRoom.Proofs.Thinning
import ChatRoom.Proofs.Lobby
import ChatRoom.Proofs.Account
import ChatRoom.Proofs.RecordRoundTrip
import ChatRoom.Proofs.Convergence
import ChatRoom.Proofs.Streaming
import ChatRoom.Proofs.Conservation
import ChatRoom.Proofs.PlainList
import ChatRoom.Proofs.StreamRoundTrip
import ChatRoom.Proofs.LossyText
import ChatRoom.Proofs.PassingOn
import ChatRoom.Proofs.Introductions
import ChatRoom.Proofs.Retirement
import ChatRoom.Proofs.Answers
import ChatRoom.Proofs.Outgoing
import ChatRoom.Proofs.Party
import ChatRoom.Proofs.Outsiders
import ChatRoom.Proofs.Delivering
import ChatRoom.Proofs.Flushing
import ChatRoom.Proofs.Listening
import ChatRoom.Proofs.Tenure
import ChatRoom.Proofs.Teardown
import ChatRoom.Proofs.Idling
import ChatRoom.Proofs.Closing
import ChatRoom.Proofs.Exits
import ChatRoom.Proofs.Receiving
import ChatRoom.Proofs.Refusals
import ChatRoom.Proofs.Departures
import ChatRoom.Proofs.Lines
import ChatRoom.Proofs.Broadcasting
import ChatRoom.Proofs.CanonicalFrames
import ChatRoom.Proofs.Writing
import ChatRoom.Proofs.Cutting
import ChatRoom.Proofs.Configurations
import ChatRoom.Proofs.Interleaving
